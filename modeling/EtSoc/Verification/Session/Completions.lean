import EtSoc.Verification.Session.Runs

/-! # Completions over whole runs -/

namespace EtSoc

open Function Program

/-- Until it collects its response or gives up on it, a waiter waits for its command. -/
theorem waiting_append {punctual : Prop} {between older : List QueueEvent} {t : Tag} {c : ℕ}
    (h : LogOk punctual (between ++ older)) (hw : waiting older t = some c)
    (hcollected : ∀ rsp, .collected t rsp ∉ between) (hgaveUp : .gaveUp t ∉ between) :
    waiting (between ++ older) t = some c := by
  induction between with
  | nil => exact hw
  | cons e between ih =>
    have hw := ih (LogOk.of_append [e] h)
      (fun rsp hin => hcollected rsp (List.mem_cons_of_mem _ hin))
      fun hin => hgaveUp (List.mem_cons_of_mem _ hin)
    rw [List.cons_append]
    cases e with
    | pushed tag c' =>
      have hfree : waiting (between ++ older) tag = none :=
        (LogOk.eventOk [] h).1
      have hne : tag ≠ t := by
        rintro rfl
        simp [hfree] at hw
      rwa [waiting, if_neg hne]
    | collected tag rsp =>
      have hne : tag ≠ t := by
        rintro rfl
        exact hcollected rsp List.mem_cons_self
      rwa [waiting, if_neg hne]
    | gaveUp tag =>
      have hne : tag ≠ t := by
        rintro rfl
        exact hgaveUp List.mem_cons_self
      rwa [waiting, if_neg hne]
    | popped rsp | collecting tag => exact hw

/-- Every response collected under a tag is the one to the command its waiter pushed. -/
def Exact (w : World) (log : List QueueEvent) : Prop :=
  ∀ newer t rsp older, log = newer ++ .collected t rsp :: older →
    ∃ c a, waiting older t = some c ∧ rsp.origin = some c ∧ w.accepted[c]? = some a ∧
      a.cmd.tagId = t ∧ w.answer c = some rsp.bytes

/-- No response is collected twice. -/
def Once (log : List QueueEvent) : Prop :=
  log.Pairwise fun e e' => ∀ t rsp t' rsp', e = .collected t rsp → e' = .collected t' rsp' →
    rsp.origin ≠ rsp'.origin

/-- A response that was popped while its waiter had neither collected it nor given up is what
the next collection by that waiter returns. -/
def Prompts (log : List QueueEvent) : Prop :=
  ∀ newer t between older c rsp, log = newer ++ .collecting t :: (between ++ older) →
    waiting older t = some c → Popped older c rsp → (∀ rsp', .collected t rsp' ∉ between) →
    .gaveUp t ∉ between → ∃ newer', newer = newer' ++ [.collected t rsp]

theorem InOrder.exact {s : Sys} (h : InOrder s) : Exact s.world s.log := by
  intro newer t rsp older hlog
  have hlogOk := h.logOk
  rw [hlog] at hlogOk
  obtain ⟨c, hw, hpop⟩ := LogOk.eventOk _ hlogOk
  obtain ⟨a, ha, hat⟩ := h.pushed t c (by
    rw [hlog]
    exact List.mem_append_right _ (List.mem_cons_of_mem _ (mem_of_waiting hw)))
  refine ⟨c, a, hw, hpop.2, ha, hat, h.popped c rsp ⟨?_, hpop.2⟩⟩
  rw [hlog]
  exact List.mem_append_right _ (List.mem_cons_of_mem _ hpop.1)

theorem InOrder.prompts {s : Sys} (h : InOrder s) (hformed : s.world.machine.wellFormed = true) :
    Prompts s.log := by
  intro newer t between older c rsp hlog hw hpop hcollected hgaveUp
  have hlogOk := h.logOk
  have hquiet := h.quiet hformed
  rw [hlog] at hlogOk hquiet
  have hbetween : LogOk (s.world.machine.wellFormed = true) (between ++ older) :=
    LogOk.of_append (newer ++ [.collecting t]) (by simpa using hlogOk)
  refine hlogOk.collected_of_popped hformed hquiet (waiting_append hbetween hw hcollected hgaveUp)
    ⟨List.mem_append_right _ hpop.1, hpop.2⟩

namespace Session

/-- What `collectResponse` returns is what it puts on the record. -/
def Records : Prop := ∀ tag timeout operation s rsp s',
  collectResponse tag timeout operation s = (.ok rsp, s') → s'.log.head? = some (.collected tag rsp)

/-- In any run, with a device that answers commands under their tags: responses are
collected by those who wait for them, once, and at once when they are there already. -/
theorem completions {setup : Setup} (calls : List Call) (hbears : setup.machine.bearsTag = true)
    (hformed : setup.machine.wellFormed = true) :
    Exact ((init setup).run calls).sys.world ((init setup).run calls).sys.log ∧
      Once ((init setup).run calls).sys.log ∧ Prompts ((init setup).run calls).sys.log ∧
      Records := by
  have h := (good_run hbears calls).inOrder
  refine ⟨h.exact, h.logOk.collected_pairwise, h.prompts (by rw [run_machine]; exact hformed),
    fun tag timeout operation s rsp s' hrun => ?_⟩
  have hrecords := collectResponse_records (P := fun _ => True) tag timeout operation s trivial
  rwa [hrun] at hrecords

/-- A launch whose response is popped while that of a reset is awaited. -/
def overtaken : Setup where
  machine := ⟨true, true, true, true, true, fun _ m => m, 4096⟩
  mem := fun _ => 0
  address := 0
  dram := ⟨0, 2 ^ 20, 16, 2, 64⟩
  defaultTimeout := 5
  script :=
    [⟨[], .yes⟩, ⟨[], .yes⟩, ⟨[.start 0, .exec 0, .answer 0 (List.replicate 36 0)], .response 0 0⟩,
      ⟨[.start 1, .answer 1 ([16, 0, 1, 0, 0, 0, 0, 0] ++ List.replicate 8 0)], .response 1 0⟩]

theorem completions_overtaken :
    Exact ((init overtaken).run [.launchAsync ⟨0⟩ (.new 1), .resetShires 1, .waitLaunch 0]).sys.world
      ((init overtaken).run [.launchAsync ⟨0⟩ (.new 1), .resetShires 1, .waitLaunch 0]).sys.log ∧
    Once ((init overtaken).run [.launchAsync ⟨0⟩ (.new 1), .resetShires 1, .waitLaunch 0]).sys.log ∧
    Prompts ((init overtaken).run [.launchAsync ⟨0⟩ (.new 1), .resetShires 1, .waitLaunch 0]).sys.log ∧
    Records ∧
    ((init overtaken).run [.launchAsync ⟨0⟩ (.new 1), .resetShires 1, .waitLaunch 0]).sys.log.head? =
      some (.collected 0 ⟨List.replicate 36 0, 0, some 0⟩) := by
  obtain ⟨hexact, honce, hprompts, hrecords⟩ :=
    @completions overtaken [.launchAsync ⟨0⟩ (.new 1), .resetShires 1, .waitLaunch 0] rfl rfl
  exact ⟨hexact, honce, hprompts, hrecords, by decide +kernel⟩

end Session

end EtSoc
