import EtSoc.Model.Dma
import EtSoc.Model.Wire

/-! # Reading commands back

The layout of the header and of the list nodes, as a reader of byte strings, which finds in
the bytes of a command what the command was built from. -/

namespace EtSoc

open Bytes

/-! ## The reader -/

/-- A list node with the addresses it has on the wire. -/
structure WireNode where
  hostVirtAddr : ℕ
  hostPhyAddr : ℕ
  devicePhyAddr : ℕ
  size : ℕ
deriving DecidableEq, Repr

inductive WireBody where
  | kernelLaunch (launch : KernelLaunch)
  | dmaReadlist (nodes : List WireNode)
  | dmaWritelist (nodes : List WireNode)
  | cmReset (shireMask : ℕ)
deriving DecidableEq, Repr

structure WireCommand where
  header : CmnHeader
  body : WireBody
deriving DecidableEq, Repr

def CmnHeader.read (bs : List UInt8) : Option (CmnHeader × List UInt8) := do
  let (size, bs) ← readLe? 2 bs
  let (tagId, bs) ← readLe? 2 bs
  let (msgId, bs) ← readLe? 2 bs
  let (flags, bs) ← readLe? 2 bs
  return (⟨UInt16.ofNat size, UInt16.ofNat tagId, UInt16.ofNat msgId, UInt16.ofNat flags⟩, bs)

def WireNode.read (bs : List UInt8) : Option (WireNode × List UInt8) := do
  let (hostVirtAddr, bs) ← readLe? 8 bs
  let (hostPhyAddr, bs) ← readLe? 8 bs
  let (devicePhyAddr, bs) ← readLe? 8 bs
  let (size, bs) ← readLe? 4 bs
  let (_, bs) ← readLe? 4 bs
  return (⟨hostVirtAddr, hostPhyAddr, devicePhyAddr, size⟩, bs)

/-- Read `n` nodes, which leave nothing over. -/
def WireNode.readAll : ℕ → List UInt8 → Option (List WireNode)
  | 0, bs => if bs = [] then some [] else none
  | n + 1, bs => do
    let (node, bs) ← WireNode.read bs
    let nodes ← WireNode.readAll n bs
    return node :: nodes

def KernelLaunch.read (bs : List UInt8) : Option KernelLaunch := do
  let (codeStartAddress, bs) ← readLe? 8 bs
  let (pointerToArgs, bs) ← readLe? 8 bs
  let (exceptionBuffer, bs) ← readLe? 8 bs
  let (shireMask, payload) ← readLe? 8 bs
  return ⟨codeStartAddress, pointerToArgs, exceptionBuffer, shireMask, payload⟩

def WireBody.read (msgId : UInt16) (bs : List UInt8) : Option WireBody :=
  if msgId = MsgId.kernelLaunchCmd then
    (KernelLaunch.read bs).map .kernelLaunch
  else if msgId = MsgId.dmaReadlistCmd then
    (WireNode.readAll (bs.length / dmaNodeSize) bs).map .dmaReadlist
  else if msgId = MsgId.dmaWritelistCmd then
    (WireNode.readAll (bs.length / dmaNodeSize) bs).map .dmaWritelist
  else if msgId = MsgId.cmResetCmd then
    match readLe? 8 bs with
    | some (shireMask, []) => some (.cmReset shireMask)
    | _ => none
  else
    none

/-- A string is a command if its length is the one in its header. -/
def WireCommand.read (bs : List UInt8) : Option WireCommand := do
  let (header, rest) ← CmnHeader.read bs
  if header.size.toNat = bs.length then
    let body ← WireBody.read header.msgId rest
    return ⟨header, body⟩
  else
    none

/-! ## What commands are read as -/

def Body.msgId : Body → UInt16
  | .kernelLaunch _ => MsgId.kernelLaunchCmd
  | .dmaReadlist _ => MsgId.dmaReadlistCmd
  | .dmaWritelist _ => MsgId.dmaWritelistCmd
  | .cmReset _ => MsgId.cmResetCmd

def Body.byteLen : Body → ℕ
  | .kernelLaunch launch => kernelLaunchFixed + launch.payload.length
  | .dmaReadlist nodes | .dmaWritelist nodes => dmaNodeSize * nodes.length
  | .cmReset _ => 8

/-- The numbers of a node fit its fields. -/
structure DmaNode.Fits (node : DmaNode) : Prop where
  hostPhyAddr : node.hostPhyAddr < 2 ^ 64
  devicePhyAddr : node.devicePhyAddr < 2 ^ 64
  size : node.size < 2 ^ 32

structure KernelLaunch.Fits (launch : KernelLaunch) : Prop where
  codeStartAddress : launch.codeStartAddress < 2 ^ 64
  pointerToArgs : launch.pointerToArgs < 2 ^ 64
  exceptionBuffer : launch.exceptionBuffer < 2 ^ 64
  shireMask : launch.shireMask < 2 ^ 64

def Body.Fits : Body → Prop
  | .kernelLaunch launch => launch.Fits
  | .dmaReadlist nodes | .dmaWritelist nodes => ∀ node ∈ nodes, node.Fits
  | .cmReset shireMask => shireMask < 2 ^ 64

/-- Nothing of a command is lost in its bytes. -/
structure Command.Encodes (cmd : Command) : Prop where
  size : cmd.header.size.toNat = cmnHeaderSize + cmd.body.byteLen
  msgId : cmd.header.msgId = cmd.body.msgId
  fits : cmd.body.Fits

section
variable (virt : BufId → UInt64)

def DmaNode.wire (node : DmaNode) : WireNode :=
  ⟨(node.hostVirtAddr.virtAddr virt).toNat, node.hostPhyAddr, node.devicePhyAddr, node.size⟩

def Body.wire : Body → WireBody
  | .kernelLaunch launch => .kernelLaunch launch
  | .dmaReadlist nodes => .dmaReadlist (nodes.map (DmaNode.wire virt))
  | .dmaWritelist nodes => .dmaWritelist (nodes.map (DmaNode.wire virt))
  | .cmReset shireMask => .cmReset shireMask

def Command.wire (cmd : Command) : WireCommand := ⟨cmd.header, cmd.body.wire virt⟩

/-! ## The round trip -/

@[simp] theorem DmaNode.length_toBytes (node : DmaNode) :
    (node.toBytes virt).length = dmaNodeSize := by
  simp only [DmaNode.toBytes, List.length_append, length_leBytes, dmaNodeSize]

theorem length_nodes (nodes : List DmaNode) :
    (nodes.flatMap (DmaNode.toBytes virt)).length = dmaNodeSize * nodes.length := by
  induction nodes with
  | nil => rfl
  | cons node nodes ih =>
    rw [List.flatMap_cons, List.length_append, ih, DmaNode.length_toBytes, List.length_cons,
      Nat.mul_succ, Nat.add_comm]

theorem Body.length_toBytes (body : Body) : (body.toBytes virt).length = body.byteLen := by
  cases body with
  | kernelLaunch launch =>
    simp only [Body.toBytes, KernelLaunch.toBytes, Body.byteLen, List.length_append,
      length_leBytes, kernelLaunchFixed]
  | dmaReadlist nodes => exact length_nodes virt nodes
  | dmaWritelist nodes => exact length_nodes virt nodes
  | cmReset shireMask => exact length_leBytes 8 shireMask

theorem Command.length_toBytes (cmd : Command) :
    (cmd.toBytes virt).length = cmnHeaderSize + cmd.body.byteLen := by
  simp only [Command.toBytes, CmnHeader.toBytes, List.length_append, length_leBytes,
    Body.length_toBytes, cmnHeaderSize]

omit virt in
theorem CmnHeader.read_toBytes (header : CmnHeader) (rest : List UInt8) :
    CmnHeader.read (header.toBytes ++ rest) = some (header, rest) := by
  have hfield : ∀ (x : UInt16) (bs : List UInt8), readLe? 2 (leBytes 2 x.toNat ++ bs) =
      some (x.toNat, bs) := fun x bs => readLe?_append x.toNat_lt bs
  simp [CmnHeader.read, CmnHeader.toBytes, List.append_assoc, hfield]

omit virt in
theorem readLe?_eight {value : ℕ} (h : value < 2 ^ 64) (rest : List UInt8) :
    readLe? 8 (leBytes 8 value ++ rest) = some (value, rest) :=
  readLe?_append h rest

theorem WireNode.read_toBytes {node : DmaNode} (h : node.Fits) (rest : List UInt8) :
    WireNode.read (node.toBytes virt ++ rest) = some (node.wire virt, rest) := by
  have hvirt := (node.hostVirtAddr.virtAddr virt).toNat_lt
  have hfour : ∀ (value : ℕ) (bs : List UInt8), value < 2 ^ 32 →
      readLe? 4 (leBytes 4 value ++ bs) = some (value, bs) := fun _ bs hlt => readLe?_append hlt bs
  simp [WireNode.read, DmaNode.toBytes, List.append_assoc, readLe?_eight hvirt,
    readLe?_eight h.hostPhyAddr, readLe?_eight h.devicePhyAddr, hfour _ _ h.size, hfour,
    DmaNode.wire]

theorem WireNode.readAll_flatMap {nodes : List DmaNode} (h : ∀ node ∈ nodes, node.Fits) :
    WireNode.readAll nodes.length (nodes.flatMap (DmaNode.toBytes virt)) =
      some (nodes.map (DmaNode.wire virt)) := by
  induction nodes with
  | nil => rfl
  | cons node nodes ih =>
    have hrest := ih fun node' hmem => h node' (List.mem_cons_of_mem _ hmem)
    rw [List.flatMap_cons, List.length_cons, WireNode.readAll,
      WireNode.read_toBytes virt (h node List.mem_cons_self)]
    simp [hrest]

omit virt in
theorem KernelLaunch.read_toBytes {launch : KernelLaunch} (h : launch.Fits) :
    KernelLaunch.read launch.toBytes = some launch := by
  simp [KernelLaunch.read, KernelLaunch.toBytes, List.append_assoc,
    readLe?_eight h.codeStartAddress, readLe?_eight h.pointerToArgs,
    readLe?_eight h.exceptionBuffer, readLe?_eight h.shireMask]

theorem WireBody.read_toBytes {body : Body} (h : body.Fits) :
    WireBody.read body.msgId (body.toBytes virt) = some (body.wire virt) := by
  have hcount : ∀ nodes : List DmaNode,
      (nodes.flatMap (DmaNode.toBytes virt)).length / dmaNodeSize = nodes.length := fun nodes => by
    rw [length_nodes, Nat.mul_div_cancel_left _ (by decide)]
  cases body with
  | kernelLaunch launch =>
    rw [WireBody.read, Body.msgId, if_pos rfl, Body.toBytes, KernelLaunch.read_toBytes h]
    rfl
  | dmaReadlist nodes =>
    rw [WireBody.read, Body.msgId, if_neg (by decide), if_pos rfl, Body.toBytes, hcount,
      WireNode.readAll_flatMap virt h]
    rfl
  | dmaWritelist nodes =>
    rw [WireBody.read, Body.msgId, if_neg (by decide), if_neg (by decide), if_pos rfl,
      Body.toBytes, hcount, WireNode.readAll_flatMap virt h]
    rfl
  | cmReset shireMask =>
    rw [WireBody.read, Body.msgId, if_neg (by decide), if_neg (by decide), if_neg (by decide),
      if_pos rfl, Body.toBytes, ← List.append_nil (leBytes 8 shireMask), readLe?_eight h]
    rfl

/-- The bytes of a command are as many as its header says and are read as that command. -/
theorem Command.Encodes.read_toBytes {cmd : Command} (h : cmd.Encodes) :
    (cmd.toBytes virt).length = cmd.header.size.toNat ∧
      WireCommand.read (cmd.toBytes virt) = some (cmd.wire virt) := by
  have hlen := cmd.length_toBytes virt
  rw [← h.size] at hlen
  refine ⟨hlen, ?_⟩
  have hbody := WireBody.read_toBytes virt h.fits
  rw [← h.msgId] at hbody
  rw [WireCommand.read, hlen, Command.toBytes, CmnHeader.read_toBytes]
  simp [hbody, Command.wire]

end

/-! ## What the builders build -/

theorem command_eq_some {total : ℕ} {tagId : Tag} {msgId flags : UInt16} {body : Body}
    {cmd : Command} (h : command total tagId msgId flags body = some cmd) :
    total < 65536 ∧ cmd = ⟨⟨UInt16.ofNat total, tagId, msgId, flags⟩, body⟩ := by
  unfold command commandSize at h
  split at h
  · exact ⟨by assumption, (Option.some.inj h).symm⟩
  · simp at h

/-- What is built from numbers that fit is encoded. -/
theorem encodes_of_command {total : ℕ} {tagId : Tag} {flags : UInt16} {body : Body} {cmd : Command}
    (h : command total tagId body.msgId flags body = some cmd)
    (htotal : total = cmnHeaderSize + body.byteLen) (hfits : body.Fits) : cmd.Encodes := by
  obtain ⟨hlt, rfl⟩ := command_eq_some h
  refine ⟨?_, rfl, hfits⟩
  rw [← htotal]
  exact UInt16.toNat_ofNat_of_lt' hlt

end EtSoc
