import EtSoc.Model.Proto

/-! # Commands as bytes

What the builders of `Proto` write for the commands they build. -/

namespace EtSoc

open Bytes

def CmnHeader.toBytes (header : CmnHeader) : List UInt8 :=
  leBytes 2 header.size.toNat ++ leBytes 2 header.tagId.toNat ++ leBytes 2 header.msgId.toNat
    ++ leBytes 2 header.flags.toNat

section
/- The virtual addresses at which the host buffers are mapped. -/
variable (virt : BufId → UInt64)

def HostPtr.virtAddr (ptr : HostPtr) : UInt64 := virt ptr.buf + UInt64.ofNat ptr.offset

/-- The two kinds of list nodes have one layout, of which the last four bytes are padding. -/
def DmaNode.toBytes (node : DmaNode) : List UInt8 :=
  leBytes 8 (node.hostVirtAddr.virtAddr virt).toNat ++ leBytes 8 node.hostPhyAddr
    ++ leBytes 8 node.devicePhyAddr ++ leBytes 4 node.size ++ leBytes 4 0

def KernelLaunch.toBytes (launch : KernelLaunch) : List UInt8 :=
  leBytes 8 launch.codeStartAddress ++ leBytes 8 launch.pointerToArgs
    ++ leBytes 8 launch.exceptionBuffer ++ leBytes 8 launch.shireMask ++ launch.payload

def Body.toBytes : Body → List UInt8
  | .kernelLaunch launch => launch.toBytes
  | .dmaReadlist nodes | .dmaWritelist nodes => nodes.flatMap (DmaNode.toBytes virt)
  | .cmReset shireMask => leBytes 8 shireMask

/-- What is given to `push_sq`. -/
def Command.toBytes (cmd : Command) : List UInt8 := cmd.header.toBytes ++ cmd.body.toBytes virt

end

end EtSoc
