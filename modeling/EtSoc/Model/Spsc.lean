import EtSoc.Library.Schedules
import Mathlib.Algebra.Group.Nat.Defs
import Mathlib.Logic.Function.Basic

/-! # The queue between two harts

A kernel in which one hart passes items to another through a ring in shared memory. The memory
is sequentially consistent: each step is one load or store, together with the local work up to
the next one, and the fences have no effect. -/

namespace EtSoc.Spsc

/-- The compile-time configuration. -/
structure Config where
  n : UInt32
  cap : UInt32
  spinMax : UInt64
  cap_pow : ∃ k < 32, cap.toNat = 2 ^ k

def producerHart : UInt32 := 0
def consumerHart : UInt32 := 1
def go : UInt32 := 0x600D600D

def tailOff : ℕ := 0
def headOff : ℕ := 64
def goOff : ℕ := 128
def ringOff : ℕ := 192

/-- The words of the shared region, by byte offset. -/
abbrev Memory := ℕ → UInt32

def payload (i : UInt32) : UInt32 := i + 1

def Config.slot (cfg : Config) (index : UInt32) : ℕ := ringOff + 4 * (index % cfg.cap).toNat

/-! ## The producer -/

/-- What the producer is about to do. -/
inductive ProducerAt where
  | storeTailZero
  | storeHeadZero
  | storeGo
  | loadHead
  | storeSlot
  | storeTail
  | returned
deriving DecidableEq, Repr

structure Producer where
  next : ProducerAt
  tail : UInt32
  ok : Bool
  i : UInt32
  spins : UInt64
deriving DecidableEq, Repr

def Producer.start : Producer := ⟨.storeTailZero, 0, true, 0, 0⟩

/-- The head of the loop over the items. -/
def Producer.loop (cfg : Config) (p : Producer) : Producer :=
  if p.i < cfg.n then { p with next := .loadHead, spins := 0 } else { p with next := .returned }

/-- One more spin without success. -/
def Producer.spin (cfg : Config) (p : Producer) : Producer :=
  if cfg.spinMax < p.spins + 1 then
    { p with next := .returned, spins := p.spins + 1, ok := false }
  else
    { p with spins := p.spins + 1 }

def produce (cfg : Config) (mem : Memory) (p : Producer) : Memory × Producer :=
  match p.next with
  | .storeTailZero => (Function.update mem tailOff 0, { p with next := .storeHeadZero })
  | .storeHeadZero => (Function.update mem headOff 0, { p with next := .storeGo })
  | .storeGo => (Function.update mem goOff go, p.loop cfg)
  | .loadHead =>
    (mem, if p.tail - mem headOff < cfg.cap then { p with next := .storeSlot } else p.spin cfg)
  | .storeSlot =>
    (Function.update mem (cfg.slot p.tail) (payload p.i), { p with next := .storeTail })
  | .storeTail =>
    (Function.update mem tailOff (p.tail + 1),
      Producer.loop cfg { p with tail := p.tail + 1, i := p.i + 1 })
  | .returned => (mem, p)

/-! ## The consumer -/

/-- What the consumer is about to do. -/
inductive ConsumerAt where
  | loadGo
  | loadTail
  | loadSlot
  | storeHead
  | returned
deriving DecidableEq, Repr

structure Consumer where
  next : ConsumerAt
  head : UInt32
  ok : Bool
  sum : UInt64
  errors : UInt32
  i : UInt32
  spins : UInt64
  /-- Ghost: the items read from slots, in order. -/
  received : List UInt32
deriving DecidableEq, Repr

def Consumer.start : Consumer := ⟨.loadGo, 0, true, 0, 0, 0, 0, []⟩

/-- The head of the loop over the items. -/
def Consumer.loop (cfg : Config) (c : Consumer) : Consumer :=
  if c.ok ∧ c.i < cfg.n then { c with next := .loadTail, spins := 0 }
  else { c with next := .returned }

/-- One more spin without success. -/
def Consumer.spin (cfg : Config) (c : Consumer) : Consumer :=
  if cfg.spinMax < c.spins + 1 then
    { c with next := .returned, spins := c.spins + 1, ok := false }
  else
    { c with spins := c.spins + 1 }

def consume (cfg : Config) (mem : Memory) (c : Consumer) : Memory × Consumer :=
  match c.next with
  | .loadGo => (mem, if mem goOff = go then c.loop cfg else c.spin cfg)
  | .loadTail => (mem, if mem tailOff ≠ c.head then { c with next := .loadSlot } else c.spin cfg)
  | .loadSlot =>
    let v := mem (cfg.slot c.head)
    (mem, { c with
      next := .storeHead
      errors := if v ≠ payload c.i then c.errors + 1 else c.errors
      sum := c.sum + v.toUInt64
      received := c.received ++ [v] })
  | .storeHead =>
    (Function.update mem headOff (c.head + 1),
      Consumer.loop cfg { c with head := c.head + 1, i := c.i + 1 })
  | .returned => (mem, c)

def Config.expected (cfg : Config) : UInt64 := cfg.n.toUInt64 * (cfg.n.toUInt64 + 1) / 2

def Consumer.pass (cfg : Config) (c : Consumer) : Bool :=
  c.ok ∧ c.errors = 0 ∧ c.i = cfg.n ∧ c.sum = cfg.expected

/-! ## A launch -/

structure State where
  mem : Memory
  producer : Producer
  consumer : Consumer

/-- A launch on the shared region as it was left. -/
def start (mem : Memory) : State := ⟨mem, .start, .start⟩

/-- One step of a hart; the harts without a role do nothing. -/
def step (cfg : Config) (hart : UInt32) (s : State) : State :=
  if hart = producerHart then
    { s with mem := (produce cfg s.mem s.producer).1, producer := (produce cfg s.mem s.producer).2 }
  else if hart = consumerHart then
    { s with mem := (consume cfg s.mem s.consumer).1, consumer := (consume cfg s.mem s.consumer).2 }
  else
    s

/-- A launch in which the harts take their steps in the order of the schedule. -/
def launch (cfg : Config) (schedule : List UInt32) (mem : Memory) : State :=
  Schedules.runs (step cfg) schedule (start mem)

/-- The configuration of the kernel. -/
def source : Config := ⟨4096, 256, 2000000, 8, by decide⟩

end EtSoc.Spsc
