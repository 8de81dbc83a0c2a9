import EtSoc.Verification.Session.Launching
import EtSoc.Verification.World.Serial

/-! # Argument slots of a serial queue

A slot belongs to a command that comes after those that read its buffer. On a serial queue its
buffer is free to be filled again once that command has been collected. -/

namespace EtSoc

open Function Program

/-- The queue of the default options. -/
def mainQueue : UInt16 × Bool := (0, false)

/-! ## Distinct buffers -/

/-- No two slots have the same buffer. -/
def SlotsApart (slots : List ArgsSlot) : Prop :=
  slots.Pairwise fun slot slot' => ∀ host host', slot.host = some host →
    slot'.host = some host' → host.id ≠ host'.id

section
variable {slots : List ArgsSlot} {slot slot' : ArgsSlot} {i j : ℕ}

theorem SlotsApart.get (h : SlotsApart slots) (hi : slots[i]? = some slot)
    (hj : slots[j]? = some slot') (hne : i ≠ j) {host host' : DmaHostBuffer}
    (hhost : slot.host = some host) (hhost' : slot'.host = some host') : host.id ≠ host'.id := by
  obtain ⟨hilt, rfl⟩ := List.getElem?_eq_some_iff.1 hi
  obtain ⟨hjlt, rfl⟩ := List.getElem?_eq_some_iff.1 hj
  rw [SlotsApart, List.pairwise_iff_getElem] at h
  obtain hlt | hgt := Nat.lt_or_gt_of_ne hne
  · exact h i j hilt hjlt hlt host host' hhost hhost'
  · exact (h j i hjlt hilt hgt host' host hhost' hhost).symm

theorem slotsApart_of_get (h : ∀ (i j : ℕ) (slot slot' : ArgsSlot) (host host' : DmaHostBuffer),
    i ≠ j → slots[i]? = some slot → slots[j]? = some slot' → slot.host = some host →
    slot'.host = some host' → host.id ≠ host'.id) : SlotsApart slots := by
  rw [SlotsApart, List.pairwise_iff_getElem]
  intro i j hi hj hlt host host'
  exact h i j _ _ host host' (Nat.ne_of_lt hlt) (List.getElem?_eq_getElem hi)
    (List.getElem?_eq_getElem hj)

/-- An element of a list with one place changed. -/
theorem getElem?_modify_cases {α : Type} {l : List α} {f : α → α} {x : α}
    (h : (l.modify i f)[j]? = some x) :
    (j ≠ i ∧ l[j]? = some x) ∨ (j = i ∧ ∃ y, l[i]? = some y ∧ x = f y) := by
  rw [List.getElem?_modify] at h
  obtain ⟨y, hy, rfl⟩ := Option.map_eq_some_iff.1 h
  by_cases hij : i = j
  · subst hij
    exact .inr ⟨rfl, y, hy, by simp⟩
  · exact .inl ⟨Ne.symm hij, by simpa [hij] using hy⟩

/-- One slot gets a buffer that no other one has. -/
theorem SlotsApart.modify (h : SlotsApart slots) {f : ArgsSlot → ArgsSlot} {b : BufId}
    (hf : ∀ slot host, (f slot).host = some host → host.id = b)
    (hb : ∀ j slot host, j ≠ i → slots[j]? = some slot → slot.host = some host → host.id ≠ b) :
    SlotsApart (slots.modify i f) := by
  apply slotsApart_of_get
  intro j k slot slot' host host' hne hj hk hhost hhost'
  rcases getElem?_modify_cases hj with ⟨hji, hj'⟩ | ⟨rfl, y, hy, rfl⟩
  · rcases getElem?_modify_cases hk with ⟨hki, hk'⟩ | ⟨rfl, y, hy, rfl⟩
    · exact h.get hj' hk' hne hhost hhost'
    · rw [hf y host' hhost']
      exact hb j slot host hji hj' hhost
  · rcases getElem?_modify_cases hk with ⟨hki, hk'⟩ | ⟨rfl, -⟩
    · rw [hf y host hhost]
      exact (hb k slot' host' hki hk' hhost').symm
    · exact absurd rfl hne

end

/-! ## Owners -/

/-- After each command that still reads the buffer of the slot there is one under the tag of
its owner. -/
def World.Owned (w : World) (slot : ArgsSlot) : Prop :=
  ∀ host, slot.host = some host → ∀ c a, w.Uses host.id c a →
    ∃ t c' a', slot.owner = some t ∧ c ≤ c' ∧ w.accepted[c']? = some a' ∧ a'.cmd.tagId = t

/-- The slots, but for the one that is being filled, are in order. -/
def World.Parked (o : Option ArgsSlot) (slots : List ArgsSlot) (w : World) : Prop :=
  ∀ slot ∈ slots, (∀ s, o = some s → slot ≠ s) → w.Owned slot

/-- The commands that a serial queue takes while slot `o` is being filled. -/
def parking (o : Option ArgsSlot) (slots : List ArgsSlot) : Env where
  accepts a := a.Waits mainQueue ∧ ∀ n ∈ a.cmd.nodes, ∀ slot ∈ slots,
    (∀ s, o = some s → slot ≠ s) → ∀ host, slot.host = some host → n.hostVirtAddr.buf ≠ host.id
  strict _ := True

variable {o : Option ArgsSlot} {slots : List ArgsSlot} {machine : Machine} {m0 : Memory}
  {w : World} {slot : ArgsSlot}

theorem stable_parked : Stable (parking o slots) (World.Parked o slots) := by
  intro w w' _ hst h slot hslot hother host hhost c a huse
  have hown := h slot hslot hother host hhost c a
  cases hst with
  | step d =>
    rw [World.step_accepted]
    exact hown (World.uses_of_step huse)
  | accept sq flags cmd haccepts =>
    have hold : w.Uses host.id c a := by
      obtain ⟨ha, hc, n, hn, hbuf⟩ := huse
      obtain ha | ⟨-, rfl⟩ := World.Sound.getElem?_accept ha
      · exact ⟨ha, hc, n, hn, hbuf⟩
      · exact absurd hbuf (haccepts.2 n hn slot hslot hother host hhost)
    obtain ⟨t, c', a', howner, hle, ha', htag⟩ := hown hold
    refine ⟨t, c', a', howner, hle, ?_, htag⟩
    rw [World.accept, List.getElem?_append_left (List.getElem?_eq_some_iff.1 ha').1]
    exact ha'
  | _ => exact hown huse

/-- The device is serial, and the slots are parked. -/
def Lined (machine : Machine) (m0 : Memory) (o : Option ArgsSlot) (slots : List ArgsSlot)
    (w : World) : Prop :=
  w.Serial mainQueue machine m0 ∧ w.Parked o slots

theorem stable_lined (hex : machine.Exact) : Stable (parking o slots) (Lined machine m0 o slots) :=
  (stable_serial (E := parking o slots) hex (fun _ => trivial) fun _ ha => ha.1).and stable_parked

theorem Lined.fill (slot : ArgsSlot) (h : Lined machine m0 none slots w) :
    Lined machine m0 (some slot) slots w :=
  ⟨h.1, fun slot' hslot _ => h.2 slot' hslot (by simp)⟩

/-- The buffer of a slot whose owner was collected is not in use. -/
theorem Lined.quiescent (h : Lined machine m0 none slots w) (hs : w.Sound) (hslot : slot ∈ slots)
    (hfree : w.Free slot) {host : DmaHostBuffer} (hhost : slot.host = some host) :
    w.Quiescent host.id := by
  intro c a huse
  obtain ⟨t, c', a', howner, hle, ha', htag⟩ := h.2 slot hslot (by simp) host hhost c a huse
  obtain ⟨rsp, hrsp⟩ := hs.popped_answered c' (hfree t c' a' howner ha' htag)
  obtain ⟨n, ht⟩ := h.1.turn
  have hlt := (ht.answered c').1 (by simp [hrsp])
  have hanswered := (ht.answered c).2 (by omega)
  simp [huse.2.1] at hanswered

end EtSoc
