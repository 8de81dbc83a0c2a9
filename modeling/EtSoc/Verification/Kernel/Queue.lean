import EtSoc.Model.Spsc

/-! # The ring is a queue

A local invariant of each hart, and one that ties the two together through the shared words. -/

namespace EtSoc.Spsc

variable {cfg : Config} {mem : Memory} {p : Producer} {c : Consumer} {s : State}

/-! ## Words of the region -/

theorem slot_eq (cfg : Config) (index : UInt32) :
    cfg.slot index = ringOff + 4 * (index.toNat % cfg.cap.toNat) := by
  rw [Config.slot, UInt32.toNat_mod]

/-- The slots of a window of the ring's size are distinct. -/
theorem slot_ne {i j : UInt32} (hlt : i < j) (hwindow : j.toNat < i.toNat + cfg.cap.toNat) :
    cfg.slot i ≠ cfg.slot j := by
  rw [UInt32.lt_iff_toNat_lt] at hlt
  rw [slot_eq, slot_eq]
  intro heq
  have hmod : j.toNat % cfg.cap.toNat = i.toNat % cfg.cap.toNat := by omega
  have hdvd := Nat.dvd_of_mod_eq_zero (Nat.sub_mod_eq_zero_of_mod_eq hmod)
  have := Nat.le_of_dvd (by omega) hdvd
  omega

theorem slot_ne_control (cfg : Config) (index : UInt32) :
    cfg.slot index ≠ tailOff ∧ cfg.slot index ≠ headOff ∧ cfg.slot index ≠ goOff := by
  simp only [slot_eq, ringOff, tailOff, headOff, goOff]
  omega

theorem add_one_toNat {i n : UInt32} (h : i < n) : (i + 1).toNat = i.toNat + 1 := by
  have hlt := UInt32.lt_iff_toNat_lt.1 h
  have := n.toNat_lt
  rw [UInt32.toNat_add, show (1 : UInt32).toNat = 1 from rfl]
  omega

/-! ## Each hart by itself -/

structure ProducerOk (cfg : Config) (p : Producer) : Prop where
  tail : p.tail = p.i
  le : p.i ≤ cfg.n
  first : p.next = .storeTailZero ∨ p.next = .storeHeadZero ∨ p.next = .storeGo → p.i = 0
  more : p.next = .loadHead ∨ p.next = .storeSlot ∨ p.next = .storeTail → p.i < cfg.n
  spins : p.next = .loadHead → p.spins ≤ cfg.spinMax
  ok : p.next ≠ .returned → p.ok = true
  returned : p.next = .returned → p.ok = true → p.i = cfg.n

theorem ProducerOk.start (cfg : Config) : ProducerOk cfg .start := by
  constructor <;> simp [Producer.start]

theorem ProducerOk.loop (htail : p.tail = p.i) (hle : p.i ≤ cfg.n) (hok : p.ok = true) :
    ProducerOk cfg (p.loop cfg) := by
  rw [Producer.loop]
  split
  · constructor <;> simp_all
  · have heq : p.i = cfg.n := UInt32.le_antisymm hle (UInt32.not_lt.1 (by assumption))
    constructor <;> simp_all

theorem ProducerOk.spin (h : ProducerOk cfg p) (hnext : p.next = .loadHead) :
    ProducerOk cfg (p.spin cfg) := by
  obtain ⟨htail, hle, hfirst, hmore, hspins, hok, hreturned⟩ := h
  rw [Producer.spin]
  split
  · constructor <;> simp_all
  · have hspins : p.spins + 1 ≤ cfg.spinMax := UInt64.not_lt.1 (by assumption)
    constructor <;> simp_all

theorem ProducerOk.produce (h : ProducerOk cfg p) (mem : Memory) :
    ProducerOk cfg (produce cfg mem p).2 := by
  cases hnext : p.next <;> simp only [Spsc.produce, hnext]
  case storeTailZero | storeHeadZero =>
    obtain ⟨htail, hle, hfirst, hmore, hspins, hok, hreturned⟩ := h
    constructor <;> simp_all
  case storeGo => exact .loop h.tail h.le (h.ok (by simp [hnext]))
  case loadHead =>
    split
    · obtain ⟨htail, hle, hfirst, hmore, hspins, hok, hreturned⟩ := h
      constructor <;> simp_all
    · exact h.spin hnext
  case storeSlot =>
    obtain ⟨htail, hle, hfirst, hmore, hspins, hok, hreturned⟩ := h
    constructor <;> simp_all
  case storeTail =>
    have hlt := h.more (.inr (.inr hnext))
    refine .loop (congrArg (· + 1) h.tail) ?_ (h.ok (by simp [hnext]))
    show p.i + 1 ≤ cfg.n
    rw [UInt32.le_iff_toNat_le, add_one_toNat hlt]
    exact UInt32.lt_iff_toNat_lt.1 hlt
  case returned => exact h

/-- The items of the queue, in order. -/
def items (m : ℕ) : List UInt32 := (List.range m).map fun k => payload (UInt32.ofNat k)

theorem items_succ (i : UInt32) : items (i.toNat + 1) = items i.toNat ++ [payload i] := by
  simp [items, List.range_succ]

structure ConsumerOk (cfg : Config) (c : Consumer) : Prop where
  head : c.head = c.i
  le : c.i ≤ cfg.n
  first : c.next = .loadGo → c.i = 0
  more : c.next = .loadTail ∨ c.next = .loadSlot ∨ c.next = .storeHead → c.i < cfg.n
  spins : c.next = .loadGo ∨ c.next = .loadTail → c.spins ≤ cfg.spinMax
  ok : c.next ≠ .returned → c.ok = true
  returned : c.next = .returned → c.ok = true → c.i = cfg.n
  errors : c.errors = 0
  received : c.received = items (c.i.toNat + if c.next = .storeHead then 1 else 0)
  sum : 2 * c.sum.toNat = c.received.length * (c.received.length + 1)

theorem ConsumerOk.start (cfg : Config) : ConsumerOk cfg .start := by
  constructor <;> simp [Consumer.start, items]

theorem ConsumerOk.loop (hhead : c.head = c.i) (hle : c.i ≤ cfg.n) (hok : c.ok = true)
    (herrors : c.errors = 0) (hreceived : c.received = items c.i.toNat)
    (hsum : 2 * c.sum.toNat = c.received.length * (c.received.length + 1)) :
    ConsumerOk cfg (c.loop cfg) := by
  rw [Consumer.loop]
  split
  · constructor <;> simp_all
  · rename_i hmore
    have heq : c.i = cfg.n :=
      UInt32.le_antisymm hle (UInt32.not_lt.1 fun hlt => hmore ⟨hok, hlt⟩)
    constructor <;> simp_all

theorem ConsumerOk.spin (h : ConsumerOk cfg c) (hnext : c.next = .loadGo ∨ c.next = .loadTail) :
    ConsumerOk cfg (c.spin cfg) := by
  obtain ⟨hhead, hle, hfirst, hmore, hspins, hok, hreturned, herrors, hreceived, hsum⟩ := h
  have hne : c.next ≠ .storeHead := by rcases hnext with hnext | hnext <;> simp [hnext]
  rw [Consumer.spin]
  split
  · constructor <;> simp_all
  · have hspins : c.spins + 1 ≤ cfg.spinMax := UInt64.not_lt.1 (by assumption)
    constructor <;> simp_all

/-- An item read is added to the sum without overflow. -/
theorem sum_add {sum : UInt64} {i n : UInt32} (hlt : i < n)
    (hsum : 2 * sum.toNat = i.toNat * (i.toNat + 1)) :
    2 * (sum + (payload i).toUInt64).toNat = (i.toNat + 1) * (i.toNat + 2) := by
  have hi : i.toNat + 1 ≤ 2 ^ 32 - 1 := by
    have := UInt32.lt_iff_toNat_lt.1 hlt
    have := n.toNat_lt
    omega
  have hbound : i.toNat * (i.toNat + 1) ≤ (2 ^ 32 - 2) * (2 ^ 32 - 1) :=
    Nat.mul_le_mul (by omega) hi
  have hsucc : (i.toNat + 1) * (i.toNat + 2) = i.toNat * (i.toNat + 1) + 2 * (i.toNat + 1) := by
    rw [Nat.mul_comm, ← Nat.add_mul]
  rw [UInt64.toNat_add, UInt32.toNat_toUInt64, payload, add_one_toNat hlt, Nat.mod_eq_of_lt (by omega)]
  omega

theorem ConsumerOk.consume (h : ConsumerOk cfg c)
    (hslot : c.next = .loadSlot → mem (cfg.slot c.head) = payload c.i) :
    ConsumerOk cfg (consume cfg mem c).2 := by
  cases hnext : c.next <;> simp only [Spsc.consume, hnext]
  case loadGo =>
    have hreceived : c.received = items c.i.toNat := by simpa [hnext] using h.received
    split
    · exact .loop h.head h.le (h.ok (by simp [hnext])) h.errors hreceived h.sum
    · exact h.spin (.inl hnext)
  case loadTail =>
    split
    · obtain ⟨hhead, hle, hfirst, hmore, hspins, hok, hreturned, herrors, hreceived, hsum⟩ := h
      constructor <;> simp_all
    · exact h.spin (.inr hnext)
  case loadSlot =>
    have hlt : c.i < cfg.n := h.more (.inr (.inl hnext))
    have hreceived : c.received = items c.i.toNat := by simpa [hnext] using h.received
    have hlen : c.received.length = c.i.toNat := by simp [hreceived, items]
    have hsum := h.sum
    rw [hlen] at hsum
    have hadd := sum_add hlt hsum
    rw [hslot hnext]
    obtain ⟨hhead, hle, hfirst, hmore, hspins, hok, hreturned, herrors, -, -⟩ := h
    constructor <;> simp_all [items_succ]
  case storeHead =>
    have hlt := h.more (.inr (.inr hnext))
    have hsucc := add_one_toNat hlt
    refine .loop (congrArg (· + 1) h.head) ?_ (h.ok (by simp [hnext])) h.errors ?_ h.sum
    · show c.i + 1 ≤ cfg.n
      rw [UInt32.le_iff_toNat_le, hsucc]
      exact UInt32.lt_iff_toNat_lt.1 hlt
    · show c.received = items (c.i + 1).toNat
      rw [hsucc, h.received, if_pos hnext]
  case returned => exact h

/-! ## What the loops leave alone -/

@[simp] theorem Producer.loop_i : (p.loop cfg).i = p.i := by
  rw [loop]
  split <;> rfl

theorem Producer.loop_next (cfg : Config) (p : Producer) :
    (p.loop cfg).next = .loadHead ∨ (p.loop cfg).next = .returned := by
  rw [loop]
  split
  · exact .inl rfl
  · exact .inr rfl

@[simp] theorem Producer.spin_i : (p.spin cfg).i = p.i := by
  rw [spin]
  split <;> rfl

theorem Producer.spin_next : (p.spin cfg).next = p.next ∨ (p.spin cfg).next = .returned := by
  rw [spin]
  split
  · exact .inr rfl
  · exact .inl rfl

@[simp] theorem Consumer.loop_i : (c.loop cfg).i = c.i := by
  rw [loop]
  split <;> rfl

theorem Consumer.loop_next (cfg : Config) (c : Consumer) :
    (c.loop cfg).next = .loadTail ∨ (c.loop cfg).next = .returned := by
  rw [loop]
  split
  · exact .inl rfl
  · exact .inr rfl

@[simp] theorem Consumer.spin_i : (c.spin cfg).i = c.i := by
  rw [spin]
  split <;> rfl

theorem Consumer.spin_next : (c.spin cfg).next = c.next ∨ (c.spin cfg).next = .returned := by
  rw [spin]
  split
  · exact .inr rfl
  · exact .inl rfl

/-! ## Both harts together -/

/-- The producer has not released the consumer yet. -/
def Producer.Initialising (p : Producer) : Prop :=
  p.next = .storeTailZero ∨ p.next = .storeHeadZero ∨ p.next = .storeGo

structure Shared (cfg : Config) (mem : Memory) (p : Producer) (c : Consumer) : Prop where
  closed : p.Initialising → mem goOff ≠ go ∧ (c.next = .loadGo ∨ c.next = .returned) ∧ c.i = 0
  tail : p.next ≠ .storeTailZero → mem tailOff = p.i
  head : p.next ≠ .storeTailZero → p.next ≠ .storeHeadZero → mem headOff = c.i
  order : c.i.toNat ≤ p.i.toNat
  within : p.i.toNat ≤ c.i.toNat + cfg.cap.toNat
  room : p.next = .storeSlot ∨ p.next = .storeTail → p.i.toNat < c.i.toNat + cfg.cap.toNat
  unread : c.next = .loadSlot ∨ c.next = .storeHead → c.i.toNat < p.i.toNat
  slots : ∀ i : UInt32, c.i ≤ i → i < p.i → mem (cfg.slot i) = payload i
  written : p.next = .storeTail → mem (cfg.slot p.i) = payload p.i

theorem Shared.start (cfg : Config) (hgo : mem goOff ≠ go) : Shared cfg mem .start .start where
  closed _ := ⟨hgo, .inl rfl, rfl⟩
  tail h := absurd rfl h
  head h := absurd rfl h
  order := Nat.le_refl _
  within := Nat.le_add_right ..
  room h := by simp [Producer.start] at h
  unread h := by simp [Consumer.start] at h
  slots i _ hlt := by simp [Producer.start] at hlt
  written h := by simp [Producer.start] at h

/-- The producer returns, or enters its loop, without another access. -/
theorem Shared.settle {p' : Producer} (h : Shared cfg mem p c) (hnext : ¬p.Initialising)
    (hi : p'.i = p.i) (hnext' : p'.next = .loadHead ∨ p'.next = .returned) :
    Shared cfg mem p' c := by
  obtain ⟨hclosed, htail, hhead, horder, hwithin, hroom, hunread, hslots, hwritten⟩ := h
  simp only [Producer.Initialising, not_or] at hnext
  rcases hnext' with hnext' | hnext' <;> constructor <;> simp_all [Producer.Initialising]

theorem Shared.loadHead (h : Shared cfg mem p c) (hp : ProducerOk cfg p)
    (hnext : p.next = .loadHead) : Shared cfg mem (produce cfg mem p).2 c := by
  simp only [produce, hnext]
  split
  · rename_i hlt
    have hhead := h.head (by simp [hnext]) (by simp [hnext])
    have hroom : p.i.toNat < c.i.toNat + cfg.cap.toNat := by
      rw [hp.tail, hhead, UInt32.lt_iff_toNat_lt,
        UInt32.toNat_sub_of_le _ _ (UInt32.le_iff_toNat_le.2 h.order)] at hlt
      omega
    obtain ⟨hclosed, htail, hhead, horder, hwithin, -, hunread, hslots, hwritten⟩ := h
    constructor <;> simp_all [Producer.Initialising]
  · refine h.settle (by simp [Producer.Initialising, hnext]) Producer.spin_i ?_
    exact hnext ▸ Producer.spin_next

theorem Shared.storeSlot (h : Shared cfg mem p c) (hp : ProducerOk cfg p)
    (hnext : p.next = .storeSlot) :
    Shared cfg (produce cfg mem p).1 (produce cfg mem p).2 c := by
  obtain ⟨hne, hne', hne''⟩ := slot_ne_control cfg p.tail
  have htailEq := hp.tail
  have hroom := h.room (.inl hnext)
  have hslots : ∀ i : UInt32, c.i ≤ i → i < p.i →
      Function.update mem (cfg.slot p.tail) (payload p.i) (cfg.slot i) = payload i := by
    intro i hle hlt
    have hle' := UInt32.le_iff_toNat_le.1 hle
    rw [hp.tail, Function.update_of_ne (slot_ne hlt (by omega)), h.slots i hle hlt]
  obtain ⟨hclosed, htail, hhead, horder, hwithin, -, hunread, -, hwritten⟩ := h
  simp only [produce, hnext]
  constructor <;> simp_all [Producer.Initialising, Function.update_apply, Ne.symm]

theorem Shared.storeTail (h : Shared cfg mem p c) (hp : ProducerOk cfg p)
    (hnext : p.next = .storeTail) :
    Shared cfg (produce cfg mem p).1 (produce cfg mem p).2 c := by
  have hlt := hp.more (.inr (.inr hnext))
  have hsucc := add_one_toNat hlt
  have hroom := h.room (.inr hnext)
  obtain ⟨q, hq, hqi⟩ : ∃ q : Producer, Spsc.produce cfg mem p =
      (Function.update mem tailOff (p.tail + 1), q.loop cfg) ∧ q.i = p.i + 1 :=
    ⟨{ p with tail := p.tail + 1, i := p.i + 1 }, by simp only [Spsc.produce, hnext], rfl⟩
  have hmem : ∀ i, Function.update mem tailOff (p.tail + 1) (cfg.slot i) = mem (cfg.slot i) :=
    fun i => Function.update_of_ne (slot_ne_control cfg i).1 ..
  rw [hq]
  simp only
  constructor
  case closed => rcases q.loop_next cfg with hloop | hloop <;> simp [Producer.Initialising, hloop]
  case tail => simp [hp.tail, hqi]
  case head =>
    have hhead := h.head (by simp [hnext]) (by simp [hnext])
    intro _ _
    rwa [Function.update_of_ne (by decide)]
  case order =>
    have := h.order
    simp only [Producer.loop_i, hqi, hsucc]
    omega
  case within =>
    simp only [Producer.loop_i, hqi, hsucc]
    omega
  case room => rcases q.loop_next cfg with hloop | hloop <;> simp [hloop]
  case unread =>
    intro hc
    have := h.unread hc
    simp only [Producer.loop_i, hqi, hsucc]
    omega
  case slots =>
    intro i hle hi
    simp only [Producer.loop_i, hqi, UInt32.lt_iff_toNat_lt, hsucc] at hi
    rw [hmem]
    rcases Nat.lt_or_eq_of_le (Nat.le_of_lt_succ hi) with hi | hi
    · exact h.slots i hle (UInt32.lt_iff_toNat_lt.2 hi)
    · rw [UInt32.toNat_inj.1 hi]
      exact h.written hnext
  case written => rcases q.loop_next cfg with hloop | hloop <;> simp [hloop]

theorem Shared.produce (h : Shared cfg mem p c) (hp : ProducerOk cfg p) :
    Shared cfg (produce cfg mem p).1 (produce cfg mem p).2 c := by
  cases hnext : p.next
  case storeTailZero | storeHeadZero =>
    have hzero := hp.first (by simp [hnext])
    obtain ⟨hclosed, htail, hhead, horder, hwithin, hroom, hunread, hslots, hwritten⟩ := h
    have hclosed := hclosed (by simp [Producer.Initialising, hnext])
    simp only [Spsc.produce, hnext]
    constructor <;>
      simp_all [Producer.Initialising, Function.update_apply, tailOff, headOff, goOff]
  case storeGo =>
    have hzero := hp.first (by simp [hnext])
    have hloop := p.loop_next cfg
    obtain ⟨hclosed, htail, hhead, horder, hwithin, hroom, hunread, hslots, hwritten⟩ := h
    simp only [Spsc.produce, hnext]
    rcases hloop with hloop | hloop <;> constructor <;>
      simp_all [Producer.Initialising, Function.update_apply, tailOff, headOff, goOff]
  case loadHead =>
    have hmem : (Spsc.produce cfg mem p).1 = mem := by simp only [Spsc.produce, hnext]
    exact hmem.symm ▸ h.loadHead hp hnext
  case storeSlot => exact h.storeSlot hp hnext
  case storeTail => exact h.storeTail hp hnext
  case returned => simpa only [Spsc.produce, hnext] using h

theorem Shared.spin {c' : Consumer} (h : Shared cfg mem p c) (hi : c'.i = c.i)
    (hnext : c.next = .loadGo ∨ c.next = .loadTail)
    (hnext' : c'.next = c.next ∨ c'.next = .returned) : Shared cfg mem p c' := by
  obtain ⟨hclosed, htail, hhead, horder, hwithin, hroom, hunread, hslots, hwritten⟩ := h
  rcases hnext with hnext | hnext <;> rcases hnext' with hnext' | hnext' <;> constructor <;>
    simp_all

theorem Shared.storeHead (h : Shared cfg mem p c) (hc : ConsumerOk cfg c)
    (hnext : c.next = .storeHead) :
    Shared cfg (consume cfg mem c).1 p (consume cfg mem c).2 := by
  have hsucc := add_one_toNat (hc.more (.inr (.inr hnext)))
  have hlt := h.unread (.inr hnext)
  have hopen : ¬p.Initialising := fun hp => by simpa [hnext] using (h.closed hp).2.1
  obtain ⟨d, hd, hdi⟩ : ∃ d : Consumer, Spsc.consume cfg mem c =
      (Function.update mem headOff (c.head + 1), d.loop cfg) ∧ d.i = c.i + 1 :=
    ⟨{ c with head := c.head + 1, i := c.i + 1 }, by simp only [Spsc.consume, hnext], rfl⟩
  have hmem : ∀ i, Function.update mem headOff (c.head + 1) (cfg.slot i) = mem (cfg.slot i) :=
    fun i => Function.update_of_ne (slot_ne_control cfg i).2.1 ..
  rw [hd]
  simp only
  constructor
  case closed => exact fun hp => absurd hp hopen
  case tail =>
    intro hp
    rw [Function.update_of_ne (by decide)]
    exact h.tail hp
  case head => simp [hc.head, hdi]
  case order =>
    simp only [Consumer.loop_i, hdi, hsucc]
    omega
  case within =>
    have := h.within
    simp only [Consumer.loop_i, hdi, hsucc]
    omega
  case room =>
    intro hp
    have := h.room hp
    simp only [Consumer.loop_i, hdi, hsucc]
    omega
  case unread => rcases d.loop_next cfg with hloop | hloop <;> simp [hloop]
  case slots =>
    intro i hle hi
    simp only [Consumer.loop_i, hdi, UInt32.le_iff_toNat_le, hsucc] at hle
    rw [hmem]
    exact h.slots i (UInt32.le_iff_toNat_le.2 (by omega)) hi
  case written =>
    intro hp
    rw [hmem]
    exact h.written hp

theorem Shared.consume (h : Shared cfg mem p c) (hc : ConsumerOk cfg c) :
    Shared cfg (consume cfg mem c).1 p (consume cfg mem c).2 := by
  cases hnext : c.next
  case loadGo =>
    simp only [Spsc.consume, hnext]
    split
    · rename_i hgo
      have hopen : ¬p.Initialising := fun hp => (h.closed hp).1 hgo
      obtain ⟨hclosed, htail, hhead, horder, hwithin, hroom, hunread, hslots, hwritten⟩ := h
      rcases c.loop_next cfg with hloop | hloop <;> constructor <;> simp_all
    · exact h.spin Consumer.spin_i (.inl hnext) Consumer.spin_next
  case loadTail =>
    simp only [Spsc.consume, hnext]
    split
    · rename_i htail
      have hopen : ¬p.Initialising := fun hp => by simpa [hnext] using (h.closed hp).2.1
      have hlt : c.i.toNat < p.i.toNat := by
        rw [hc.head, h.tail fun hp => hopen (.inl hp)] at htail
        exact Nat.lt_of_le_of_ne h.order fun heq => htail (UInt32.toNat_inj.1 heq.symm)
      obtain ⟨hclosed, htail, hhead, horder, hwithin, hroom, hunread, hslots, hwritten⟩ := h
      constructor <;> simp_all
    · exact h.spin Consumer.spin_i (.inr hnext) Consumer.spin_next
  case loadSlot =>
    have hunread := h.unread (.inl hnext)
    have hopen : ¬p.Initialising := fun hp => by simpa [hnext] using (h.closed hp).2.1
    obtain ⟨hclosed, htail, hhead, horder, hwithin, hroom, -, hslots, hwritten⟩ := h
    simp only [Spsc.consume, hnext]
    constructor <;> simp_all
  case storeHead => exact h.storeHead hc hnext
  case returned => simpa only [Spsc.consume, hnext] using h

/-! ## Runs -/

structure Inv (cfg : Config) (s : State) : Prop where
  producer : ProducerOk cfg s.producer
  consumer : ConsumerOk cfg s.consumer
  shared : Shared cfg s.mem s.producer s.consumer

theorem Inv.start (cfg : Config) (hgo : mem goOff ≠ go) : Inv cfg (start mem) :=
  ⟨.start cfg, .start cfg, .start cfg hgo⟩

theorem Shared.item (h : Shared cfg mem p c) (hc : ConsumerOk cfg c)
    (hnext : c.next = .loadSlot) : mem (cfg.slot c.head) = payload c.i := by
  rw [hc.head]
  exact h.slots c.i (UInt32.le_refl _) (UInt32.lt_iff_toNat_lt.2 (h.unread (.inl hnext)))

theorem Inv.step (hart : UInt32) (h : Inv cfg s) : Inv cfg (step cfg hart s) := by
  rw [Spsc.step]
  split
  · exact ⟨h.producer.produce s.mem, h.consumer, h.shared.produce h.producer⟩
  · split
    · exact ⟨h.producer, h.consumer.consume (h.shared.item h.consumer), h.shared.consume h.consumer⟩
    · exact h

theorem Inv.launch (cfg : Config) (schedule : List UInt32) (hgo : mem goOff ≠ go) :
    Inv cfg (launch cfg schedule mem) :=
  Schedules.invariant (Inv cfg) (fun hart _ => Inv.step hart) (Inv.start cfg hgo) schedule

/-- What holds at all times: the published indices differ by at most the capacity, the slot that
the producer is about to store has been read, and what the consumer read is a prefix of the
items; a consumer that gives up neither wait has all of them. -/
structure Fifo (cfg : Config) (s : State) : Prop where
  indices : s.producer.next ≠ .storeTailZero → s.producer.next ≠ .storeHeadZero →
    (s.mem headOff).toNat ≤ (s.mem tailOff).toNat ∧
      (s.mem tailOff).toNat ≤ (s.mem headOff).toNat + cfg.cap.toNat
  overrun : s.producer.next = .storeSlot → ∀ i : UInt32, s.consumer.i ≤ i → i < s.producer.i →
    cfg.slot s.producer.tail ≠ cfg.slot i
  read : s.consumer.i.toNat ≤ s.consumer.received.length ∧
    (s.consumer.next ≠ .storeHead → s.consumer.received.length = s.consumer.i.toNat)
  received : s.consumer.received = items s.consumer.received.length
  within : s.consumer.received.length ≤ s.producer.i.toNat
  errors : s.consumer.errors = 0
  sent : s.producer.next = .returned → s.producer.ok = true → s.producer.i = cfg.n
  finished : s.consumer.next = .returned → s.consumer.ok = true →
    s.consumer.received = items cfg.n.toNat ∧
      2 * s.consumer.sum.toNat = cfg.n.toNat * (cfg.n.toNat + 1) ∧ s.consumer.pass cfg = true

theorem expected_toNat (cfg : Config) :
    cfg.expected.toNat = cfg.n.toNat * (cfg.n.toNat + 1) / 2 := by
  have hn : cfg.n.toNat ≤ 2 ^ 32 - 1 := by
    have := cfg.n.toNat_lt
    omega
  have hbound : cfg.n.toNat * (cfg.n.toNat + 1) ≤ (2 ^ 32 - 1) * 2 ^ 32 :=
    Nat.mul_le_mul hn (by omega)
  have hsucc : (cfg.n.toUInt64 + 1).toNat = cfg.n.toNat + 1 := by
    rw [UInt64.toNat_add, UInt32.toNat_toUInt64, show (1 : UInt64).toNat = 1 from rfl]
    omega
  rw [Config.expected, UInt64.toNat_div, UInt64.toNat_mul, hsucc, UInt32.toNat_toUInt64,
    Nat.mod_eq_of_lt (by omega)]
  rfl

theorem length_items (m : ℕ) : (items m).length = m := by simp [items]

theorem ConsumerOk.length_received (h : ConsumerOk cfg c) :
    c.received.length = c.i.toNat + if c.next = .storeHead then 1 else 0 := by
  rw [h.received, length_items]

theorem ConsumerOk.finished (h : ConsumerOk cfg c) (hnext : c.next = .returned)
    (hok : c.ok = true) : c.received = items cfg.n.toNat ∧
      2 * c.sum.toNat = cfg.n.toNat * (cfg.n.toNat + 1) ∧ c.pass cfg = true := by
  have hi := h.returned hnext hok
  have hreceived : c.received = items cfg.n.toNat := by simpa [hnext, hi] using h.received
  have hsum := h.sum
  rw [hreceived, length_items] at hsum
  have hexpected : c.sum = cfg.expected := by
    rw [← UInt64.toNat_inj, expected_toNat]
    omega
  exact ⟨hreceived, hsum, by simp [Consumer.pass, hok, h.errors, hi, hexpected]⟩

theorem Inv.fifo (h : Inv cfg s) : Fifo cfg s where
  indices hfirst hsecond := by
    rw [h.shared.tail hfirst, h.shared.head hfirst hsecond]
    exact ⟨h.shared.order, h.shared.within⟩
  overrun hnext i hle hlt := by
    have hroom := h.shared.room (.inl hnext)
    have hle := UInt32.le_iff_toNat_le.1 hle
    rw [h.producer.tail]
    exact (slot_ne hlt (by omega)).symm
  read := by
    have hlen := h.consumer.length_received
    refine ⟨by omega, fun hnext => ?_⟩
    rwa [if_neg hnext, Nat.add_zero] at hlen
  received := by
    have hlen := h.consumer.length_received
    rw [hlen, ← h.consumer.received]
  within := by
    have horder := h.shared.order
    rw [h.consumer.length_received]
    split
    · have := h.shared.unread (.inr (by assumption))
      omega
    · exact horder
  errors := h.consumer.errors
  sent := h.producer.returned
  finished := h.consumer.finished

end EtSoc.Spsc
