import EtSoc.Verification.Kernel.Queue

/-! # Launches of the queue

Both harts return, the ring is a queue under every schedule, and the start of a launch is free
of races exactly when no earlier launch left its sentinel behind. -/

namespace EtSoc.Spsc

variable {cfg : Config} {mem : Memory} {p : Producer} {c : Consumer} {s : State}

/-! ## Termination -/

/-- A bound on the steps that a hart has left in one round of its loop. -/
def Config.lap (cfg : Config) : ℕ := cfg.spinMax.toNat + 3

def Producer.left (cfg : Config) (p : Producer) : ℕ :=
  match p.next with
  | .storeTailZero => cfg.lap * (cfg.n.toNat - p.i.toNat) + 3
  | .storeHeadZero => cfg.lap * (cfg.n.toNat - p.i.toNat) + 2
  | .storeGo => cfg.lap * (cfg.n.toNat - p.i.toNat) + 1
  | .loadHead => cfg.lap * (cfg.n.toNat - p.i.toNat) - p.spins.toNat
  | .storeSlot => cfg.lap * (cfg.n.toNat - (p.i.toNat + 1)) + 2
  | .storeTail => cfg.lap * (cfg.n.toNat - (p.i.toNat + 1)) + 1
  | .returned => 0

def Consumer.left (cfg : Config) (c : Consumer) : ℕ :=
  match c.next with
  | .loadGo => cfg.lap * (cfg.n.toNat - c.i.toNat + 1) - c.spins.toNat
  | .loadTail => cfg.lap * (cfg.n.toNat - c.i.toNat) - c.spins.toNat
  | .loadSlot => cfg.lap * (cfg.n.toNat - (c.i.toNat + 1)) + 2
  | .storeHead => cfg.lap * (cfg.n.toNat - (c.i.toNat + 1)) + 1
  | .returned => 0

theorem lap_succ (cfg : Config) {i : ℕ} (h : i < cfg.n.toNat) :
    cfg.lap * (cfg.n.toNat - i) =
      cfg.lap * (cfg.n.toNat - (i + 1)) + cfg.spinMax.toNat + 3 := by
  rw [show cfg.n.toNat - i = cfg.n.toNat - (i + 1) + 1 by omega, Nat.mul_succ]
  exact (Nat.add_assoc ..).symm

theorem spins_succ {spins spinMax : UInt64} (h : spins ≤ spinMax)
    (hspin : spinMax.toNat + 1 < 2 ^ 64) : (spins + 1).toNat = spins.toNat + 1 := by
  have := UInt64.le_iff_toNat_le.1 h
  rw [UInt64.toNat_add, show (1 : UInt64).toNat = 1 from rfl]
  omega

theorem Producer.left_loop (cfg : Config) (p : Producer) :
    (p.loop cfg).left cfg ≤ cfg.lap * (cfg.n.toNat - p.i.toNat) := by
  rw [loop]
  split <;> simp [left]

theorem Consumer.left_loop (cfg : Config) (c : Consumer) :
    (c.loop cfg).left cfg ≤ cfg.lap * (cfg.n.toNat - c.i.toNat) := by
  rw [loop]
  split <;> simp [left]

theorem Producer.left_produce (h : ProducerOk cfg p) (hspin : cfg.spinMax.toNat + 1 < 2 ^ 64) :
    (produce cfg mem p).2.left cfg ≤ p.left cfg - 1 := by
  cases hnext : p.next <;> simp only [produce, left, hnext]
  case storeTailZero | storeHeadZero => omega
  case storeGo =>
    have := p.left_loop cfg
    simp only [left] at this
    omega
  case loadHead =>
    have hlap := lap_succ cfg (UInt32.lt_iff_toNat_lt.1 (h.more (.inl hnext)))
    have hspins := UInt64.le_iff_toNat_le.1 (h.spins hnext)
    have hsucc := spins_succ (h.spins hnext) hspin
    by_cases hroom : p.tail - mem headOff < cfg.cap
    · simp only [if_pos hroom]
      omega
    · simp only [if_neg hroom, spin]
      by_cases hmax : cfg.spinMax < p.spins + 1
      · simp [if_pos hmax]
      · simp only [if_neg hmax, hnext]
        omega
  case storeSlot => omega
  case storeTail =>
    have hloop := Producer.left_loop cfg
      { next := .storeTail, tail := p.tail + 1, ok := p.ok, i := p.i + 1, spins := p.spins }
    simp only [left, add_one_toNat (h.more (.inr (.inr hnext)))] at hloop
    omega
  case returned => omega

theorem Consumer.left_spin (hle : c.spins ≤ cfg.spinMax) (hspin : cfg.spinMax.toNat + 1 < 2 ^ 64)
    (hnext : c.next = .loadGo ∨ c.next = .loadTail) :
    (c.spin cfg).left cfg ≤ c.left cfg - 1 := by
  have hsucc := spins_succ hle hspin
  rw [spin]
  by_cases hmax : cfg.spinMax < c.spins + 1
  · simp [if_pos hmax, left]
  · rcases hnext with hnext | hnext <;> simp only [if_neg hmax, left, hnext] <;> omega

theorem Consumer.left_consume (h : ConsumerOk cfg c) (hspin : cfg.spinMax.toNat + 1 < 2 ^ 64) :
    (consume cfg mem c).2.left cfg ≤ c.left cfg - 1 := by
  cases hnext : c.next <;> simp only [consume, hnext]
  case loadGo =>
    have hspins := UInt64.le_iff_toNat_le.1 (h.spins (.inl hnext))
    split
    · have hloop := c.left_loop cfg
      have hleft : c.left cfg = cfg.lap * (cfg.n.toNat - c.i.toNat + 1) - c.spins.toNat := by
        simp only [left, hnext]
      rw [Nat.mul_succ] at hleft
      have hlap : cfg.lap = cfg.spinMax.toNat + 3 := rfl
      omega
    · exact left_spin (h.spins (.inl hnext)) hspin (.inl hnext)
  case loadTail =>
    have hspins := UInt64.le_iff_toNat_le.1 (h.spins (.inr hnext))
    have hlap := lap_succ cfg (UInt32.lt_iff_toNat_lt.1 (h.more (.inl hnext)))
    split
    · simp only [left, hnext]
      omega
    · exact left_spin (h.spins (.inr hnext)) hspin (.inr hnext)
  case loadSlot =>
    simp only [left, hnext]
    omega
  case storeHead =>
    have hloop := Consumer.left_loop cfg
      { c with next := .storeHead, head := c.head + 1, i := c.i + 1 }
    have hleft : c.left cfg = cfg.lap * (cfg.n.toNat - (c.i.toNat + 1)) + 1 := by
      simp only [left, hnext]
    simp only [add_one_toNat (h.more (.inr (.inr hnext)))] at hloop
    omega
  case returned => simp [left, hnext]

theorem Producer.returned_of_left (h : ProducerOk cfg p) (hleft : p.left cfg = 0) :
    p.next = .returned := by
  cases hnext : p.next <;> simp only [left, hnext] at hleft
  case loadHead =>
    have hlap := lap_succ cfg (UInt32.lt_iff_toNat_lt.1 (h.more (.inl hnext)))
    have hspins := UInt64.le_iff_toNat_le.1 (h.spins hnext)
    omega
  case returned => rfl
  all_goals omega

theorem Consumer.returned_of_left (h : ConsumerOk cfg c) (hleft : c.left cfg = 0) :
    c.next = .returned := by
  cases hnext : c.next <;> simp only [left, hnext] at hleft
  case loadGo =>
    have hspins := UInt64.le_iff_toNat_le.1 (h.spins (.inl hnext))
    have hlap : cfg.lap = cfg.spinMax.toNat + 3 := rfl
    rw [Nat.mul_succ] at hleft
    omega
  case loadTail =>
    have hlap := lap_succ cfg (UInt32.lt_iff_toNat_lt.1 (h.more (.inl hnext)))
    have hspins := UInt64.le_iff_toNat_le.1 (h.spins (.inr hnext))
    omega
  case returned => rfl
  all_goals omega

/-- Steps after which a hart has returned. -/
def Config.rounds (cfg : Config) : ℕ := cfg.lap * (cfg.n.toNat + 1)

theorem step_producer (cfg : Config) (s : State) :
    (step cfg producerHart s).producer = (produce cfg s.mem s.producer).2 := rfl

theorem step_producer_of_ne {hart : UInt32} (h : hart ≠ producerHart) :
    (step cfg hart s).producer = s.producer := by
  rw [step, if_neg h]
  split <;> rfl

theorem step_consumer (cfg : Config) (s : State) :
    (step cfg consumerHart s).consumer = (consume cfg s.mem s.consumer).2 := rfl

theorem step_consumer_of_ne {hart : UInt32} (h : hart ≠ consumerHart) :
    (step cfg hart s).consumer = s.consumer := by
  rw [step, if_neg h]
  split <;> rfl

theorem ProducerOk.step (hart : UInt32) (h : ProducerOk cfg s.producer) :
    ProducerOk cfg (step cfg hart s).producer := by
  by_cases heq : hart = producerHart
  · rw [heq, step_producer]
    exact h.produce s.mem
  · rwa [step_producer_of_ne heq]

theorem ProducerOk.launch (cfg : Config) (schedule : List UInt32) (mem : Memory) :
    ProducerOk cfg (launch cfg schedule mem).producer :=
  Schedules.invariant (fun s : State => ProducerOk cfg s.producer) (fun hart _ => .step hart)
    (.start cfg) schedule

/-- The producer returns, whatever the region holds. -/
theorem producer_returns (hspin : cfg.spinMax.toNat + 1 < 2 ^ 64) {schedule : List UInt32}
    (hcount : cfg.rounds ≤ schedule.count producerHart) (mem : Memory) :
    (launch cfg schedule mem).producer.next = .returned := by
  have hle : (launch cfg schedule mem).producer.left cfg ≤
      Producer.start.left cfg - schedule.count producerHart :=
    Schedules.measure_le (fun s : State => ProducerOk cfg s.producer)
      (fun s : State => s.producer.left cfg) (fun hart _ => .step hart)
      (fun s h => step_producer cfg s ▸ Producer.left_produce h hspin)
      (fun hart s hne => by rw [step_producer_of_ne hne]) (.start cfg) schedule
  refine Producer.returned_of_left (.launch cfg schedule mem) ?_
  have hstart : Producer.start.left cfg = cfg.lap * cfg.n.toNat + 3 := rfl
  have hlap : cfg.lap = cfg.spinMax.toNat + 3 := rfl
  rw [Config.rounds, Nat.mul_succ] at hcount
  omega

theorem consumer_returns (hspin : cfg.spinMax.toNat + 1 < 2 ^ 64) {schedule : List UInt32}
    (hcount : cfg.rounds ≤ schedule.count consumerHart) (hgo : mem goOff ≠ go) :
    (launch cfg schedule mem).consumer.next = .returned := by
  have hle : (launch cfg schedule mem).consumer.left cfg ≤
      Consumer.start.left cfg - schedule.count consumerHart :=
    Schedules.measure_le (Inv cfg) (fun s : State => s.consumer.left cfg)
      (fun hart _ => Inv.step hart)
      (fun s h => step_consumer cfg s ▸ Consumer.left_consume h.consumer hspin)
      (fun hart s hne => by rw [step_consumer_of_ne hne]) (Inv.start cfg hgo) schedule
  refine Consumer.returned_of_left (Inv.launch cfg schedule hgo).consumer ?_
  have hstart : Consumer.start.left cfg = cfg.rounds := rfl
  omega

/-! ## The queue -/

/-- The ring is a queue under every schedule, and both harts return once they had steps enough. -/
theorem ring_fifo (cfg : Config) (mem : Memory) (hgo : mem goOff ≠ go) (schedule : List UInt32) :
    Fifo cfg (launch cfg schedule mem) ∧ (cfg.spinMax.toNat + 1 < 2 ^ 64 →
      cfg.rounds ≤ schedule.count producerHart → cfg.rounds ≤ schedule.count consumerHart →
      (launch cfg schedule mem).producer.next = .returned ∧
        (launch cfg schedule mem).consumer.next = .returned) := by
  refine ⟨(Inv.launch cfg schedule hgo).fifo, fun hspin hproducer hconsumer => ⟨?_, ?_⟩⟩
  · exact producer_returns hspin hproducer mem
  · exact consumer_returns hspin hconsumer hgo

/-- The shared region of the image that was loaded. -/
def image : Memory := fun _ => 0xDEADBEEF

/-- Five items through a ring of two slots, with the harts taking turns. -/
def five : Config := ⟨5, 2, 9, 1, by decide⟩

def turns : List UInt32 := (List.replicate five.rounds [producerHart, consumerHart]).flatten

theorem ring_fifo_five : Fifo five (launch five turns image) ∧
    (launch five turns image).producer.next = .returned ∧
    (launch five turns image).consumer.next = .returned ∧
    (launch five turns image).consumer.ok = true ∧
    (launch five turns image).consumer.received = [1, 2, 3, 4, 5] := by
  obtain ⟨hfifo, hreturned⟩ := ring_fifo five image (by decide) turns
  obtain ⟨hproducer, hconsumer⟩ := hreturned (by decide) (by decide +kernel) (by decide +kernel)
  have hok : (launch five turns image).consumer.ok = true := by decide +kernel
  exact ⟨hfifo, hproducer, hconsumer, hok, (hfifo.finished hconsumer hok).1⟩

/-! ## The start -/

/-- The consumer is past its first wait only when this launch initialised the indices, and the
slot it is about to load holds an item of this launch. -/
structure Handshake (s : State) : Prop where
  initialised : s.consumer.next = .loadTail ∨ s.consumer.next = .loadSlot ∨
    s.consumer.next = .storeHead →
      s.producer.next ≠ .storeTailZero ∧ s.producer.next ≠ .storeHeadZero
  current : s.consumer.next = .loadSlot → s.consumer.i < s.producer.i

theorem Inv.handshake (h : Inv cfg s) : Handshake s where
  initialised hnext := by
    have hopen : ¬s.producer.Initialising := by
      intro hp
      rcases (h.shared.closed hp).2.1 with hwait | hwait <;> simp [hwait] at hnext
    exact ⟨fun hp => hopen (.inl hp), fun hp => hopen (.inr (.inl hp))⟩
  current hnext := UInt32.lt_iff_toNat_lt.2 (h.shared.unread (.inl hnext))

/-- With the sentinel of an earlier launch in place, the consumer does not wait. -/
theorem not_handshake (hn : 0 < cfg.n) (hgo : mem goOff = go) :
    ¬Handshake (launch cfg [consumerHart] mem) := by
  intro h
  have hnext : (launch cfg [consumerHart] mem).consumer.next = .loadTail := by
    show (consume cfg mem .start).2.next = .loadTail
    simp [consume, Consumer.start, Consumer.loop, hgo, hn]
  exact (h.initialised (.inl hnext)).1 rfl

/-- Only the producer that releases the consumer stores the sentinel's word. -/
theorem produce_go (cfg : Config) (mem : Memory) (p : Producer)
    (h : ¬p.Initialising → mem goOff = go) :
    ¬(produce cfg mem p).2.Initialising → (produce cfg mem p).1 goOff = go := by
  have hslot := (slot_ne_control cfg p.tail).2.2.symm
  cases hnext : p.next <;> simp only [produce, hnext]
  case storeTailZero | storeHeadZero => simp [Producer.Initialising]
  case storeGo => simp
  case loadHead | returned => exact fun _ => h (by simp [Producer.Initialising, hnext])
  case storeSlot =>
    intro _
    rw [Function.update_of_ne hslot]
    exact h (by simp [Producer.Initialising, hnext])
  case storeTail =>
    intro _
    rw [Function.update_of_ne (by decide)]
    exact h (by simp [Producer.Initialising, hnext])

theorem consume_go (cfg : Config) (mem : Memory) (c : Consumer) :
    (consume cfg mem c).1 goOff = mem goOff := by
  cases hnext : c.next <;> simp only [consume, hnext]
  case storeHead => exact Function.update_of_ne (by decide) ..

/-- A launch whose producer got past its initialisation leaves the sentinel in place. -/
theorem launch_go (cfg : Config) (schedule : List UInt32) (mem : Memory) :
    ¬(launch cfg schedule mem).producer.Initialising → (launch cfg schedule mem).mem goOff = go := by
  refine Schedules.invariant (fun s : State => ¬s.producer.Initialising → s.mem goOff = go) ?_ ?_
    schedule
  · intro hart s h
    rw [step]
    split
    · exact produce_go cfg s.mem s.producer h
    · split
      · exact fun hopen => (consume_go cfg s.mem s.consumer).trans (h hopen)
      · exact h
  · exact fun hopen => absurd (.inl rfl) hopen

/-- The start is free of races exactly when the sentinel is not in place yet, which every launch
whose producer returns leaves there. -/
theorem handshake_iff (cfg : Config) (mem : Memory) (hn : 0 < cfg.n) :
    ((∀ schedule, Handshake (launch cfg schedule mem)) ↔ mem goOff ≠ go) ∧
      ∀ schedule, (launch cfg schedule mem).producer.next = .returned →
        (launch cfg schedule mem).mem goOff = go := by
  refine ⟨⟨fun h hgo => not_handshake hn hgo (h _), fun hgo schedule => ?_⟩, fun schedule h => ?_⟩
  · exact (Inv.launch cfg schedule hgo).handshake
  · exact launch_go cfg schedule mem (by simp [Producer.Initialising, h])

theorem handshake_iff_source :
    Handshake (launch source [consumerHart, producerHart, consumerHart] image) :=
  (handshake_iff source image (by decide)).1.2 (by decide) _

/-- The producer takes all of its steps before the consumer takes any. -/
def Config.inTurn (cfg : Config) : List UInt32 :=
  List.replicate cfg.rounds producerHart ++ List.replicate cfg.rounds consumerHart

theorem count_producer_inTurn (cfg : Config) : cfg.inTurn.count producerHart = cfg.rounds := by
  rw [Config.inTurn, List.count_append, List.count_replicate_self, List.count_replicate]
  rfl

theorem count_consumer_inTurn (cfg : Config) : cfg.inTurn.count consumerHart = cfg.rounds := by
  rw [Config.inTurn, List.count_append, List.count_replicate_self, List.count_replicate,
    if_neg (by decide), Nat.zero_add]

/-- A launch of the image that runs to its end. -/
def firstLaunch : State := launch source source.inTurn image

theorem second_launch_races : firstLaunch.producer.next = .returned ∧
    firstLaunch.consumer.next = .returned ∧
    ¬∀ schedule, Handshake (launch source schedule firstLaunch.mem) := by
  have hspin : source.spinMax.toNat + 1 < 2 ^ 64 := by decide
  have himage : image goOff ≠ go := by decide
  have hproducer : firstLaunch.producer.next = .returned := by
    rw [firstLaunch]
    exact producer_returns hspin (Nat.le_of_eq (count_producer_inTurn source).symm) image
  have hconsumer : firstLaunch.consumer.next = .returned := by
    rw [firstLaunch]
    exact consumer_returns hspin (Nat.le_of_eq (count_consumer_inTurn source).symm) himage
  have hgo := launch_go source source.inTurn image (by
    show ¬firstLaunch.producer.Initialising
    simp [Producer.Initialising, hproducer])
  exact ⟨hproducer, hconsumer, fun h => not_handshake (by decide) hgo (h _)⟩

end EtSoc.Spsc
