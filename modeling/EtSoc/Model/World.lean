import EtSoc.Library.Spans
import EtSoc.Model.Proto
import Mathlib.Logic.Function.Basic

/-! # The device behind the transport

Device memory, the mapped host buffers, and the commands accepted so far. A command is
named by its position among all accepted ones. The device starts commands, copies the
nodes of their DMA lists, runs their kernels and answers them, in any order that the
machine allows. -/

namespace EtSoc

open Function Spans

abbrev Memory := ℕ → UInt8

/-- What is known of a device. -/
structure Machine where
  /-- A response of at least a header bears the tag of the command it answers, and nothing
  but responses is emitted. -/
  bearsTag : Bool
  /-- Every response has at least a header. -/
  wellFormed : Bool
  /-- A command with `BARRIER` starts after all earlier ones of its queue are answered. -/
  barriers : Bool
  /-- A success is reported only after the work of the command is done. -/
  executes : Bool
  /-- An error may be reported without the work being done. -/
  faults : Bool
  kernel : KernelLaunch → Memory → Memory
  sqMaxMsgSize : ℕ

/-- A command that a submission queue took, and the host memory at that moment. -/
structure Accepted where
  sqIndex : UInt16
  descFlags : UInt8
  cmd : Command
  hostThen : BufId → Memory

/-- The queue of a command; the high-priority ones are queues of their own. -/
def Accepted.queue (a : Accepted) : UInt16 × Bool :=
  (a.sqIndex, a.descFlags &&& DescFlags.highPriority != 0)

/-- One moment of the device's history. -/
structure Snapshot where
  mem : Memory
  running : ℕ → Bool

structure World where
  machine : Machine
  mem : Memory
  host : BufId → Memory
  nextBuf : ℕ
  accepted : List Accepted
  /-- The nodes of a DMA command not copied yet. -/
  left : ℕ → List DmaNode
  started : ℕ → Bool
  /-- The launches whose kernel has run. -/
  ran : ℕ → Bool
  answer : ℕ → Option (List UInt8)
  popped : ℕ → Bool
  history : List Snapshot

def World.init (machine : Machine) (mem : Memory) : World where
  machine := machine
  mem := mem
  host := fun _ _ => 0
  nextBuf := 0
  accepted := []
  left := fun _ => []
  started := fun _ => false
  ran := fun _ => false
  answer := fun _ => none
  popped := fun _ => false
  history := []

namespace World

def running (w : World) (c : ℕ) : Bool := w.started c && (w.answer c).isNone

/-- The earlier commands of the queue of `c` are all answered. -/
def Drained (w : World) (c : ℕ) (a : Accepted) : Prop :=
  ∀ b < c, ∀ a' ∈ w.accepted[b]?, a'.queue = a.queue → (w.answer b).isSome

instance (w : World) (c : ℕ) (a : Accepted) : Decidable (w.Drained c a) :=
  inferInstanceAs (Decidable (∀ b < c, ∀ a' ∈ w.accepted[b]?, _))

def MayStart (w : World) (c : ℕ) (a : Accepted) : Prop :=
  w.started c = false ∧ (w.machine.barriers → a.cmd.barrier → w.Drained c a)

instance (w : World) (c : ℕ) (a : Accepted) : Decidable (w.MayStart c a) :=
  inferInstanceAs (Decidable (_ ∧ _))

/-- The work of a command is done. -/
def Done (w : World) (c : ℕ) (a : Accepted) : Prop :=
  w.left c = [] ∧ (a.cmd.launch?.isSome → w.ran c)

instance (w : World) (c : ℕ) (a : Accepted) : Decidable (w.Done c a) :=
  inferInstanceAs (Decidable (_ ∧ _))

def success (rsp : List UInt8) : Prop := responseStatus rsp = some 0

instance (rsp : List UInt8) : Decidable (success rsp) := inferInstanceAs (Decidable (_ = _))

/-- The device may answer `c` with `rsp`. -/
def MayAnswer (w : World) (c : ℕ) (a : Accepted) (rsp : List UInt8) : Prop :=
  w.running c ∧
  (w.machine.wellFormed → 8 ≤ rsp.length) ∧
  (w.machine.bearsTag → ∀ header ∈ ResponseHeader.parse rsp, header.tagId = a.cmd.tagId) ∧
  (w.machine.executes → w.Done c a ∨ (w.machine.faults ∧ ¬success rsp))

instance (w : World) (c : ℕ) (a : Accepted) (rsp : List UInt8) :
    Decidable (w.MayAnswer c a rsp) :=
  inferInstanceAs (Decidable (_ ∧ _ ∧ (_ → ∀ _ ∈ ResponseHeader.parse rsp, _) ∧ _))

/-! ## Device steps -/

def start (w : World) (c : ℕ) : World := { w with started := update w.started c true }

/-- Copy one node from the host to the device. -/
def copyIn (w : World) (node : DmaNode) : World :=
  { w with
    mem := blit w.mem node.devicePhyAddr (w.host node.hostVirtAddr.buf) node.hostVirtAddr.offset
      node.size }

/-- Copy one node from the device to the host. -/
def copyOut (w : World) (node : DmaNode) : World :=
  { w with
    host := update w.host node.hostVirtAddr.buf
      (blit (w.host node.hostVirtAddr.buf) node.hostVirtAddr.offset w.mem node.devicePhyAddr
        node.size) }

def copy (w : World) (c : ℕ) (isWrite : Bool) (node : DmaNode) : World :=
  let w := { w with left := update w.left c ((w.left c).erase node) }
  if isWrite then w.copyIn node else w.copyOut node

def exec (w : World) (c : ℕ) (launch : KernelLaunch) : World :=
  { w with mem := w.machine.kernel launch w.mem, ran := update w.ran c true }

def respond (w : World) (c : ℕ) (rsp : List UInt8) : World :=
  { w with answer := update w.answer c (some rsp) }

inductive DevStep where
  | start (c : ℕ)
  /-- Copy the `k`th of the nodes left. -/
  | copy (c : ℕ) (k : ℕ)
  | exec (c : ℕ)
  | answer (c : ℕ) (rsp : List UInt8)

/-- One step of the device; a step it may not take changes nothing. -/
def act (w : World) : DevStep → World
  | .start c =>
    match w.accepted[c]? with
    | some a => if w.MayStart c a then w.start c else w
    | none => w
  | .copy c k =>
    match w.accepted[c]?, (w.left c)[k]? with
    | some a, some node => if w.running c then w.copy c a.cmd.isWrite node else w
    | _, _ => w
  | .exec c =>
    match w.accepted[c]?.bind (·.cmd.launch?) with
    | some launch => if w.running c ∧ w.ran c = false then w.exec c launch else w
    | none => w
  | .answer c rsp =>
    match w.accepted[c]? with
    | some a => if w.MayAnswer c a rsp then w.respond c rsp else w
    | none => w

def snapshot (w : World) : World :=
  { w with history := ⟨w.mem, w.running⟩ :: w.history }

def step (w : World) (d : DevStep) : World := (w.act d).snapshot

def steps (w : World) (ds : List DevStep) : World := ds.foldl step w

/-! ## Transport operations -/

/-- A submission queue takes a command. -/
def accept (w : World) (sqIndex : UInt16) (descFlags : UInt8) (cmd : Command) : World :=
  { w with
    accepted := w.accepted ++ [⟨sqIndex, descFlags, cmd, w.host⟩]
    left := update w.left w.accepted.length cmd.nodes }

/-- The response to `c` leaves the completion queue. -/
def pop (w : World) (c : ℕ) : World := { w with popped := update w.popped c true }

/-- Map a host buffer. -/
def map (w : World) (purpose : Purpose) (contents : List UInt8) : World :=
  { w with
    nextBuf := w.nextBuf + 1
    host := update w.host ⟨purpose, w.nextBuf⟩ (fun i => contents.getD i 0) }

/-- The host writes a buffer. -/
def fill (w : World) (b : BufId) (contents : Memory) : World :=
  { w with host := update w.host b contents }

end World

end EtSoc
