import EtSoc.Verification.World.Stride

/-! # What the discipline of host buffers gives

A command that sends a buffer finds in it what was there when the command was accepted.
A command with a barrier finds the earlier ones of its queue answered. -/

namespace EtSoc

open Function

namespace World

/-- The unanswered commands on one buffer are of one direction. -/
def OneWay (strict : Purpose → Prop) (w : World) : Prop :=
  ∀ b c a c' a', strict b.purpose → w.Uses b c a → w.Uses b c' a' → a.cmd.isWrite = a'.cmd.isWrite

/-- The buffers that unanswered commands send from are as they were at the acceptance. -/
def Steady (strict : Purpose → Prop) (w : World) : Prop :=
  ∀ b c a, strict b.purpose → w.Uses b c a → a.cmd.isWrite = true → w.host b = a.hostThen b

end World

theorem stable_oneWay (E : Env) : Stable E (World.OneWay E.strict) := by
  intro w w' _ hst h
  cases hst with
  | step d =>
    exact fun b c a c' a' hstrict hu hu' =>
      h b c a c' a' hstrict (World.uses_of_step hu) (World.uses_of_step hu')
  | pop => exact h
  | map => exact h
  | fill => exact h
  | accept sq flags cmd _ hclear =>
    intro b c a c' a' hstrict hu hu'
    obtain hu | ⟨rfl, n, hn, rfl⟩ := World.uses_of_accept hu <;>
      obtain hu' | ⟨hcmd, m, hm, hbuf⟩ := World.uses_of_accept hu'
    · exact h b c a c' a' hstrict hu hu'
    · subst hbuf
      rw [hcmd]
      exact hclear m hm hstrict c a hu
    · exact (hclear n hn hstrict c' a' hu').symm
    · rw [hcmd]

/-- The discipline, kept by every run. -/
structure Disciplined (strict : Purpose → Prop) (w : World) : Prop where
  mapped : w.Mapped
  oneWay : w.OneWay strict
  steady : w.Steady strict

theorem stable_disciplined (E : Env) : Stable E (Disciplined E.strict) := by
  intro w w' hs hst h
  refine ⟨stable_mapped E w w' hs hst h.mapped, stable_oneWay E w w' hs hst h.oneWay,
    fun b c a hstrict huse hwrite => ?_⟩
  cases hst with
  | step d =>
    have huse := World.uses_of_step huse
    have honly : w.Only true b := fun c' a' huse' => (h.oneWay b c' a' c a hstrict huse' huse).trans
      hwrite
    exact ((w.act_moves d).host hs honly).trans (h.steady b c a hstrict huse hwrite)
  | pop => exact h.steady b c a hstrict huse hwrite
  | map purpose contents =>
    obtain ⟨ha, hc, n, hn, hbuf⟩ := huse
    have hlt := h.mapped a (List.mem_of_getElem? ha) n hn
    rw [hbuf] at hlt
    have hne : b ≠ ⟨purpose, w.nextBuf⟩ := fun heq => by
      rw [heq] at hlt
      exact Nat.lt_irrefl _ hlt
    exact (update_of_ne hne ..).trans (h.steady b c a hstrict ⟨ha, hc, n, hn, hbuf⟩ hwrite)
  | fill b' contents hquiet =>
    have hne : b ≠ b' := fun heq => hquiet (heq ▸ hstrict) c a (heq ▸ huse)
    exact (update_of_ne hne ..).trans (h.steady b c a hstrict huse hwrite)
  | accept sq flags cmd =>
    obtain ⟨ha, hc, hn⟩ := huse
    obtain ha | ⟨-, rfl⟩ := World.Sound.getElem?_accept ha
    · exact h.steady b c a hstrict ⟨ha, hc, hn⟩ hwrite
    · rfl

/-! ## Barriers -/

/-- A command with a barrier has not started before the earlier ones were answered. -/
def World.Ordered (w : World) : Prop :=
  w.machine.barriers = true → ∀ c a, w.accepted[c]? = some a → a.cmd.barrier = true →
    w.started c = true → w.Drained c a

theorem World.Drained.mono {w w' : World} {c : ℕ} {a : Accepted} (h : w.Drained c a)
    (hlt : c < w.accepted.length) (hg : Grows w w') : w'.Drained c a := by
  intro b hb a' ha' hq
  obtain ⟨more, hmore⟩ := hg.accepted
  rw [← hmore, Option.mem_def, List.getElem?_append_left (by omega)] at ha'
  obtain ⟨rsp, hrsp⟩ := Option.isSome_iff_exists.1 (h b hb a' ha' hq)
  simp [hg.answer b rsp hrsp]

theorem stable_ordered (E : Env) : Stable E World.Ordered := by
  intro w w' hs hst h hbarriers c a ha hbarrier hstarted
  have hg := hst.grows
  rw [hg.machine] at hbarriers
  have hold : w.started c = true → w'.Drained c a := fun hold => by
    have hlt := hs.started_lt c hold
    refine (h hbarriers c a ?_ hbarrier hold).mono hlt hg
    obtain ⟨more, hmore⟩ := hg.accepted
    rwa [← hmore, List.getElem?_append_left hlt] at ha
  cases hst with
  | step d =>
    rw [World.step_accepted] at ha
    change (w.act d).started c = true at hstarted
    have hm := w.act_moves d
    by_cases hc : w.started c = true
    · exact hold hc
    · refine World.Drained.mono ?_ (List.getElem?_eq_some_iff.1 ha).1 hg
      generalize w.act d = w'' at hm hstarted
      cases hm with
      | @start c' a' ha' hmay =>
        have hcc : c = c' := by
          by_contra hne
          rw [World.start] at hstarted
          simp only [update_of_ne hne] at hstarted
          exact hc hstarted
        subst hcc
        obtain rfl : a = a' := Option.some.inj (ha.symm.trans ha')
        exact hmay.2 hbarriers hbarrier
      | copy => simp_all
      | _ => exact absurd hstarted hc
  | accept sq flags cmd => exact hold hstarted
  | _ => exact hold hstarted

end EtSoc
