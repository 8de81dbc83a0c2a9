import EtSoc.Verification.World.Steady

/-! # What commands do to device memory

Which bytes a command may write, and the bytes that the commands in flight leave alone
or all write alike. -/

namespace EtSoc

open Function Spans

/-- The command may change the device byte `x`. -/
def Machine.MayWrite (m : Machine) (a : Accepted) (x : ℕ) : Prop :=
  (a.cmd.isWrite = true ∧ ∃ n ∈ a.cmd.nodes, n.devicePhyAddr ≤ x ∧ x < n.devicePhyAddr + n.size) ∨
    ∃ launch, a.cmd.launch? = some launch ∧ ∃ mem, m.kernel launch mem x ≠ mem x

namespace World
variable {w : World}

/-- A byte that changes is written by a running command. -/
theorem Moves.mem {w' : World} (h : w.Moves w') (hs : w.Sound) {x : ℕ}
    (hx : ∀ c a, w.accepted[c]? = some a → w.running c = true → ¬w.machine.MayWrite a x) :
    w'.mem x = w.mem x := by
  cases h with
  | @copy c a node ha hnode hrun =>
    cases hw : a.cmd.isWrite with
    | true =>
      rw [copy_mem_of_write]
      exact blit_outside fun hin =>
        hx c a ha hrun (.inl ⟨hw, node, hs.left_subset c a ha node hnode, hin⟩)
    | false => rw [copy_mem_of_read]
  | @exec c a launch ha hlaunch hrun hran =>
    by_contra hne
    exact hx c a ha hrun (.inr ⟨launch, hlaunch, w.mem, hne⟩)
  | _ => rfl

/-- The bytes of `R` are those of `m`, and no unanswered command may write one. -/
def Still (R : ℕ → Prop) (m : Memory) (w : World) : Prop :=
  ∀ x, R x → w.mem x = m x ∧
    ∀ c a, w.accepted[c]? = some a → w.answer c = none → ¬w.machine.MayWrite a x

end World

theorem stable_still {E : Env} {machine : Machine} {R : ℕ → Prop} {m : Memory}
    (hE : ∀ a, E.accepts a → ∀ x, R x → ¬machine.MayWrite a x) :
    Stable E fun w => w.machine = machine ∧ w.Still R m := by
  rintro w w' hs hst ⟨rfl, h⟩
  refine ⟨hst.grows.machine, fun x hx => ?_⟩
  obtain ⟨hmem, hquiet⟩ := h x hx
  cases hst with
  | step d =>
    refine ⟨?_, fun c a ha hc => ?_⟩
    · refine ((w.act_moves d).mem hs fun c a ha hrun => ?_).trans hmem
      exact hquiet c a ha (World.running_iff.1 hrun).2
    · rw [World.step_machine]
      rw [World.step_accepted] at ha
      exact hquiet c a ha ((w.act_moves d).answer_none hc)
  | pop => exact ⟨hmem, hquiet⟩
  | map => exact ⟨hmem, hquiet⟩
  | fill => exact ⟨hmem, hquiet⟩
  | accept sq flags cmd haccepts =>
    refine ⟨hmem, fun c a ha hc => ?_⟩
    obtain ha | ⟨-, rfl⟩ := World.Sound.getElem?_accept ha
    · exact hquiet c a ha hc
    · exact hE _ haccepts x hx

/-! ## Bytes under way -/

/-- What the command writes to the device is `data`, given by device address. -/
def Payload (data : Memory) (a : Accepted) : Prop :=
  ∀ n ∈ a.cmd.nodes, ∀ k < n.size,
    a.hostThen n.hostVirtAddr.buf (n.hostVirtAddr.offset + k) = data (n.devicePhyAddr + k)

/-- Into the bytes of `R` the unanswered commands write nothing but `val`, and all that do are
commands from `lo` on; where such a command has copied a byte, it has arrived. -/
structure Putting (E : Env) (lo : ℕ) (R : ℕ → Prop) (val : Memory) (w : World) : Prop where
  le : lo ≤ w.accepted.length
  writers : ∀ c a x, R x → w.accepted[c]? = some a → w.answer c = none →
    w.machine.MayWrite a x →
      lo ≤ c ∧ a.cmd.launch? = none ∧ Payload val a ∧ ∀ n ∈ a.cmd.nodes,
        E.strict n.hostVirtAddr.buf.purpose
  written : ∀ c a, lo ≤ c → w.accepted[c]? = some a → a.cmd.isWrite = true → Payload val a →
    ∀ n ∈ a.cmd.nodes, n ∉ w.left c → ∀ k < n.size, R (n.devicePhyAddr + k) →
      w.mem (n.devicePhyAddr + k) = val (n.devicePhyAddr + k)

namespace Putting
variable {E : Env} {lo : ℕ} {R : ℕ → Prop} {val : Memory} {w : World}

theorem init (h : ∀ x, R x → ∀ c a, w.accepted[c]? = some a → w.answer c = none →
    ¬w.machine.MayWrite a x) : Putting E w.accepted.length R val w := by
  refine ⟨Nat.le_refl _, fun c a x hx ha hc hw => absurd hw (h x hx c a ha hc), fun c a hc ha => ?_⟩
  have := (List.getElem?_eq_some_iff.1 ha).1
  omega

/-- A running command leaves a byte alone, or writes its value. -/
theorem moves_mem {w' : World} (h : Putting E lo R val w) (hd : Disciplined E.strict w)
    (hs : w.Sound) (hm : w.Moves w') {x : ℕ} (hx : R x) :
    w'.mem x = w.mem x ∨ w'.mem x = val x := by
  cases hm with
  | @copy c a node ha hnode hrun =>
    cases hw : a.cmd.isWrite with
    | false => exact .inl (by rw [World.copy_mem_of_read])
    | true =>
      by_cases hin : node.devicePhyAddr ≤ x ∧ x < node.devicePhyAddr + node.size
      · have hmem := hs.left_subset c a ha node hnode
        have hc := (World.running_iff.1 hrun).2
        obtain ⟨-, -, hpay, hstrict⟩ := h.writers c a x hx ha hc (.inl ⟨hw, node, hmem, hin⟩)
        right
        rw [World.copy_mem_of_write, blit_inside hin.1 hin.2,
          hd.steady _ c a (hstrict node hmem) ⟨ha, hc, node, hmem, rfl⟩ hw, hpay node hmem _ (by omega),
          show node.devicePhyAddr + (x - node.devicePhyAddr) = x by omega]
      · exact .inl (by rw [World.copy_mem_of_write, blit_outside hin])
  | @exec c a launch ha hlaunch hrun hran =>
    left
    by_contra hne
    have := (h.writers c a x hx ha (World.running_iff.1 hrun).2 (.inr ⟨launch, hlaunch, w.mem, hne⟩)).2.1
    simp [hlaunch] at this
  | _ => exact .inl rfl

theorem step (h : Putting E lo R val w) (hd : Disciplined E.strict w) (hs : w.Sound)
    (d : World.DevStep) : Putting E lo R val (w.step d) := by
  have hm := w.act_moves d
  rw [World.step]
  generalize w.act d = w' at hm
  have hacc : w'.snapshot.accepted = w.accepted := hm.accepted
  have hmachine : w'.snapshot.machine = w.machine := hm.machine
  refine ⟨by rw [hacc]; exact h.le, fun c a x hx ha hc hw => ?_,
    fun c a hlo ha hw hpay n hn hleft k hk hx => ?_⟩
  · rw [hacc] at ha
    rw [hmachine] at hw
    exact h.writers c a x hx ha (hm.answer_none hc) hw
  · rw [hacc] at ha
    change n ∉ w'.left c at hleft
    change w'.mem _ = _
    obtain hmem | hmem := h.moves_mem hd hs hm hx
    · by_cases hold : n ∈ w.left c
      · cases hm with
        | @copy c' a' node ha' hnode hrun =>
          -- The node has just been copied.
          have hcc : c = c' := by
            by_contra hne
            exact hleft (by simpa [update_of_ne hne] using hold)
          subst hcc
          obtain rfl : a = a' := Option.some.inj (ha.symm.trans ha')
          have hnode : n = node := by
            by_contra hne
            rw [World.copy_left, update_self] at hleft
            exact hleft ((List.mem_erase_of_ne hne).2 hold)
          subst hnode
          have hstrict := (h.writers c a _ hx ha (World.running_iff.1 hrun).2
            (.inl ⟨hw, n, hn, by omega, by omega⟩)).2.2.2
          rw [hw, World.copy_mem_of_write, blit_offset hk, hd.steady _ c a (hstrict n hn)
            ⟨ha, (World.running_iff.1 hrun).2, n, hn, rfl⟩ hw, hpay n hn k hk]
        | _ => exact absurd hold hleft
      · rw [hmem]
        exact h.written c a hlo ha hw hpay n hn hold k hk hx
    · exact hmem

/-- A byte sent by a command that succeeded has arrived. -/
theorem arrived (h : Putting E lo R val w) (hs : w.Sound) (hex : w.machine.executes = true)
    {c : ℕ} {a : Accepted} (hlo : lo ≤ c) (ha : w.accepted[c]? = some a)
    (hw : a.cmd.isWrite = true) (hpay : Payload val a) (hdone : w.Completed c) {n : DmaNode}
    (hn : n ∈ a.cmd.nodes) {k : ℕ} (hk : k < n.size) (hx : R (n.devicePhyAddr + k)) :
    w.mem (n.devicePhyAddr + k) = val (n.devicePhyAddr + k) := by
  obtain ⟨-, rsp, hrsp, hsucc⟩ := hdone
  have hleft : w.left c = [] := by
    obtain hwork | ⟨-, hfail⟩ := hs.worked hex c a rsp ha hrsp
    · exact hwork.1
    · exact absurd hsucc hfail
  exact h.written c a hlo ha hw hpay n hn (by simp [hleft]) k hk hx

end Putting

theorem stable_putting {E : Env} {machine : Machine} {lo : ℕ} {R : ℕ → Prop} {val : Memory}
    (hE : ∀ a, E.accepts a → ∀ x, R x → machine.MayWrite a x →
      a.cmd.launch? = none ∧ Payload val a ∧ ∀ n ∈ a.cmd.nodes,
        E.strict n.hostVirtAddr.buf.purpose) :
    Stable E fun w => w.machine = machine ∧ Disciplined E.strict w ∧ Putting E lo R val w := by
  rintro w w' hs hst ⟨rfl, hd, h⟩
  refine ⟨hst.grows.machine, stable_disciplined E w w' hs hst hd, ?_⟩
  cases hst with
  | step d => exact h.step hd hs d
  | pop => exact ⟨h.le, h.writers, h.written⟩
  | map => exact ⟨h.le, h.writers, h.written⟩
  | fill => exact ⟨h.le, h.writers, h.written⟩
  | accept sq flags cmd haccepts =>
    refine ⟨h.le.trans (by simp [World.accept]), fun c a x hx ha hc hw => ?_,
      fun c a hlo ha hw hpay n hn hleft k hk hx => ?_⟩
    · obtain ha | ⟨rfl, rfl⟩ := World.Sound.getElem?_accept ha
      · exact h.writers c a x hx ha hc hw
      · exact ⟨h.le, hE _ haccepts x hx hw⟩
    · obtain ha | ⟨rfl, rfl⟩ := World.Sound.getElem?_accept ha
      · refine h.written c a hlo ha hw hpay n hn ?_ k hk hx
        have hlt := (List.getElem?_eq_some_iff.1 ha).1
        simpa [World.accept, update_of_ne (Nat.ne_of_lt hlt)] using hleft
      · simp only [World.accept, update_self] at hleft
        exact absurd hn hleft

end EtSoc
