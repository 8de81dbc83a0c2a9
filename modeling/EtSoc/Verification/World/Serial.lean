import EtSoc.Library.Scatter
import EtSoc.Verification.World.Memory

/-! # A queue of barriers

When all commands wait on one queue for those before them, the device carries them out one at a
time, and its memory is the one of carrying them out in the order in which they were accepted. -/

namespace EtSoc

open Function Scatter

/-! ## Commands carried out at once -/

/-- What a node copies: bytes of a host buffer as they were at the acceptance of its command. -/
def Accepted.piece (a : Accepted) (node : DmaNode) : Piece UInt8 :=
  ⟨a.hostThen node.hostVirtAddr.buf, node.hostVirtAddr.offset, node.devicePhyAddr, node.size⟩

/-- The device memory once a command has been carried out. -/
def Machine.carryOut (machine : Machine) (mem : Memory) (a : Accepted) : Memory :=
  match a.cmd.launch? with
  | some launch => machine.kernel launch mem
  | none => if a.cmd.isWrite then putAll mem (a.cmd.nodes.map a.piece) else mem

/-- The device memory once commands have been carried out one after the other. -/
def Machine.carryOutAll (machine : Machine) (mem : Memory) (commands : List Accepted) : Memory :=
  commands.foldl machine.carryOut mem

section
variable {machine : Machine} {mem data : Memory} {a : Accepted} {launch : KernelLaunch}
  {own own' : List Accepted}

theorem carryOut_of_launch (h : a.cmd.launch? = some launch) :
    machine.carryOut mem a = machine.kernel launch mem := by
  simp [Machine.carryOut, h]

theorem carryOut_of_write (hlaunch : a.cmd.launch? = none) (hwrite : a.cmd.isWrite = true) :
    machine.carryOut mem a = putAll mem (a.cmd.nodes.map a.piece) := by
  simp [Machine.carryOut, hlaunch, hwrite]

theorem carryOut_of_read (hlaunch : a.cmd.launch? = none) (hwrite : a.cmd.isWrite = false) :
    machine.carryOut mem a = mem := by
  simp [Machine.carryOut, hlaunch, hwrite]

@[simp] theorem carryOutAll_nil : machine.carryOutAll mem [] = mem := rfl

@[simp] theorem carryOutAll_cons :
    machine.carryOutAll mem (a :: own) = machine.carryOutAll (machine.carryOut mem a) own := rfl

@[simp] theorem carryOutAll_append :
    machine.carryOutAll mem (own ++ own') =
      machine.carryOutAll (machine.carryOutAll mem own) own' := by
  simp [Machine.carryOutAll]

theorem carryOutAll_of_reads
    (h : ∀ a ∈ own, a.cmd.isWrite = false ∧ a.cmd.launch? = none) :
    machine.carryOutAll mem own = mem := by
  induction own generalizing mem with
  | nil => rfl
  | cons a own ih =>
    simp only [List.mem_cons, forall_eq_or_imp] at h
    rw [carryOutAll_cons, carryOut_of_read h.1.2 h.1.1, ih h.2]

theorem Payload.pieces (h : Payload data a) : ∀ n ∈ a.cmd.nodes, (a.piece n).Of data := h

/-- Some node of the command writes to `x`. -/
def Accepted.Covers (a : Accepted) (x : ℕ) : Prop := ∃ n ∈ a.cmd.nodes, (a.piece n).Covers x

theorem carryOut_of_covers (hlaunch : a.cmd.launch? = none) (hwrite : a.cmd.isWrite = true)
    (hpay : Payload data a) {x : ℕ} (hx : a.Covers x) : machine.carryOut mem a x = data x := by
  obtain ⟨n, hn, hcovers⟩ := hx
  rw [carryOut_of_write hlaunch hwrite]
  exact Partway.putAll_eq hpay.pieces hn hcovers

theorem carryOut_of_not_covers (hlaunch : a.cmd.launch? = none) (hwrite : a.cmd.isWrite = true)
    {x : ℕ} (hx : ¬a.Covers x) : machine.carryOut mem a x = mem x := by
  rw [carryOut_of_write hlaunch hwrite]
  apply putAll_of_not_covers
  simpa [Accepted.Covers] using hx

/-- Commands that send data leave it where they write, and the rest as it was. -/
theorem carryOutAll_of_writes
    (h : ∀ a ∈ own, a.cmd.launch? = none ∧ a.cmd.isWrite = true ∧ Payload data a) (x : ℕ) :
    ((∃ a ∈ own, a.Covers x) → machine.carryOutAll mem own x = data x) ∧
      ((∀ a ∈ own, ¬a.Covers x) → machine.carryOutAll mem own x = mem x) := by
  induction own generalizing mem with
  | nil => simp
  | cons a own ih =>
    simp only [List.mem_cons, forall_eq_or_imp] at h
    obtain ⟨⟨hlaunch, hwrite, hpay⟩, hown⟩ := h
    obtain ⟨hcovered, hother⟩ := @ih (machine.carryOut mem a) hown
    refine ⟨fun hx => ?_, fun hx => ?_⟩
    · by_cases hrest : ∃ a' ∈ own, a'.Covers x
      · exact hcovered hrest
      · simp only [List.mem_cons, exists_eq_or_imp, or_iff_left hrest] at hx
        simp only [not_exists, not_and] at hrest
        rw [carryOutAll_cons, hother hrest, carryOut_of_covers hlaunch hwrite hpay hx]
    · simp only [List.mem_cons, forall_eq_or_imp] at hx
      rw [carryOutAll_cons, hother hx.2, carryOut_of_not_covers hlaunch hwrite hx.1]

end

/-! ## Commands half carried out -/

/-- How far the command `a`, begun on `base`, has come. -/
structure Halfway (machine : Machine) (base : Memory) (a : Accepted) (left : List DmaNode)
    (ran : Bool) (mem : Memory) : Prop where
  launch : ∀ l, a.cmd.launch? = some l → mem = if ran then machine.kernel l base else base
  write : a.cmd.launch? = none → a.cmd.isWrite = true →
    Partway a.piece a.cmd.nodes left base mem
  read : a.cmd.launch? = none → a.cmd.isWrite = false → mem = base

namespace Halfway
variable {machine : Machine} {base mem : Memory} {a : Accepted} {left : List DmaNode} {ran : Bool}

theorem start : Halfway machine base a a.cmd.nodes false base :=
  ⟨by simp, fun _ _ => .start, fun _ _ => rfl⟩

theorem finish (h : Halfway machine base a [] ran mem)
    (hran : a.cmd.launch?.isSome = true → ran = true) : mem = machine.carryOut base a := by
  cases hlaunch : a.cmd.launch? with
  | some l => simp [h.launch l hlaunch, carryOut_of_launch hlaunch, hran, hlaunch]
  | none =>
    cases hwrite : a.cmd.isWrite with
    | true => rw [carryOut_of_write hlaunch hwrite, (h.write hlaunch hwrite).finish]
    | false => rw [carryOut_of_read hlaunch hwrite, h.read hlaunch hwrite]

theorem copy {data : Memory} {node : DmaNode} (h : Halfway machine base a left ran mem)
    (hlaunch : a.cmd.launch? = none) (hwrite : a.cmd.isWrite = true) (hpay : Payload data a)
    (hnode : node ∈ a.cmd.nodes) :
    Halfway machine base a (left.erase node) ran ((a.piece node).put mem) :=
  ⟨by simp [hlaunch], fun _ _ => (h.write hlaunch hwrite).put hpay.pieces hnode,
    by simp [hwrite]⟩

end Halfway

/-! ## The queue -/

/-- The command waits on queue `q` for all before it, and its nodes do not contradict each
other. -/
structure Accepted.Waits (q : UInt16 × Bool) (a : Accepted) : Prop where
  queue : a.queue = q
  barrier : a.cmd.barrier = true
  payload : a.cmd.isWrite = true → ∃ data, Payload data a

/-- A device that keeps to its barriers and reports the truth. -/
structure Machine.Exact (machine : Machine) : Prop where
  barriers : machine.barriers = true
  executes : machine.executes = true
  faults : machine.faults = false

/-- The first `n` commands were carried out, in turn, and the next may have begun. -/
structure World.Turn (m0 : Memory) (n : ℕ) (w : World) : Prop where
  le : n ≤ w.accepted.length
  answered : ∀ c, (w.answer c).isSome = true ↔ c < n
  done : w.accepted.length = n → w.mem = w.machine.carryOutAll m0 (w.accepted.take n)
  busy : ∀ a, w.accepted[n]? = some a →
    Halfway w.machine (w.machine.carryOutAll m0 (w.accepted.take n)) a (w.left n) (w.ran n) w.mem

/-- All commands wait on the queue `q`, and the memory `m0` has come to what they make of it. -/
structure World.Serial (q : UInt16 × Bool) (machine : Machine) (m0 : Memory) (w : World) :
    Prop where
  machine_eq : w.machine = machine
  disciplined : Disciplined (fun _ => True) w
  ordered : w.Ordered
  waits : ∀ a ∈ w.accepted, a.Waits q
  turn : ∃ n, w.Turn m0 n

theorem Command.nodes_of_launch {cmd : Command} {launch : KernelLaunch}
    (h : cmd.launch? = some launch) : cmd.nodes = [] := by
  unfold Command.launch? at h
  unfold Command.nodes
  split at h
  · simp_all
  · simp at h

namespace World.Serial
variable {q : UInt16 × Bool} {machine : Machine} {m0 : Memory} {w : World}

/-- Only the next command can be running. -/
theorem eq_of_running (h : w.Serial q machine m0) (hs : w.Sound) (hex : machine.Exact) {n c : ℕ}
    (ht : w.Turn m0 n) (hrun : w.running c = true) : c = n := by
  obtain ⟨hstarted, hnone⟩ := World.running_iff.1 hrun
  have hlt := hs.started_lt c hstarted
  have hle : ¬c < n := fun hc => absurd ((ht.answered c).2 hc) (by simp [hnone])
  by_contra hne
  have hn : n < c := by omega
  obtain ⟨a, ha⟩ : ∃ a, w.accepted[c]? = some a := ⟨_, List.getElem?_eq_getElem hlt⟩
  obtain ⟨b, hb⟩ : ∃ b, w.accepted[n]? = some b := ⟨_, List.getElem?_eq_getElem (by omega)⟩
  have hwaits := h.waits a (List.mem_of_getElem? ha)
  have hdrained := h.ordered (h.machine_eq ▸ hex.barriers) c a ha hwaits.barrier hstarted n hn b hb
    ((h.waits b (List.mem_of_getElem? hb)).queue.trans hwaits.queue.symm)
  exact absurd ((ht.answered n).1 hdrained) (Nat.lt_irrefl n)

/-- A step of the device is a step of the next command. -/
theorem turn_of_moves {w' : World} (h : w.Serial q machine m0) (hs : w.Sound)
    (hex : machine.Exact) (hm : w.Moves w') : ∃ n, w'.Turn m0 n := by
  obtain ⟨n, ht⟩ := h.turn
  cases hm with
  | rest => exact ⟨n, ht⟩
  | start => exact ⟨n, ht.le, ht.answered, ht.done, ht.busy⟩
  | @copy c a node ha hnode hrun =>
    obtain rfl := h.eq_of_running hs hex ht hrun
    have hmem := hs.left_subset c a ha node hnode
    have hlaunch : a.cmd.launch? = none := by
      by_contra hne
      obtain ⟨l, hl⟩ := Option.ne_none_iff_exists'.1 hne
      simp [Command.nodes_of_launch hl] at hmem
    have hbusy := ht.busy a ha
    refine ⟨c, by simpa using ht.le, by simpa using ht.answered, fun hlen => ?_, fun a' ha' => ?_⟩
    · have := (List.getElem?_eq_some_iff.1 ha).1
      rw [World.copy_accepted] at hlen
      omega
    · obtain rfl : a' = a := by
        rw [World.copy_accepted] at ha'
        exact Option.some.inj (ha'.symm.trans ha)
      simp only [World.copy_machine, World.copy_accepted, World.copy_left, update_self,
        World.copy_ran]
      cases hwrite : a'.cmd.isWrite with
      | true =>
        obtain ⟨data, hpay⟩ := (h.waits a' (List.mem_of_getElem? ha)).payload hwrite
        have hsteady := h.disciplined.steady node.hostVirtAddr.buf c a' trivial
          ⟨ha, (World.running_iff.1 hrun).2, node, hmem, rfl⟩ hwrite
        rw [World.copy_mem_of_write, hsteady]
        exact hbusy.copy hlaunch hwrite hpay hmem
      | false =>
        rw [World.copy_mem_of_read]
        exact ⟨hbusy.launch, by simp [hwrite], hbusy.read⟩
  | @exec c a launch ha hlaunch hrun hran =>
    obtain rfl := h.eq_of_running hs hex ht hrun
    refine ⟨c, ht.le, ht.answered, fun hlen => ?_, fun a' ha' => ?_⟩
    · have := (List.getElem?_eq_some_iff.1 ha).1
      change w.accepted.length = c at hlen
      omega
    · obtain rfl : a' = a := Option.some.inj (ha'.symm.trans ha)
      have hbase := (ht.busy a' ha).launch launch hlaunch
      simp only [hran, Bool.false_eq_true, if_false] at hbase
      refine ⟨fun l hl => ?_, by simp [hlaunch], by simp [hlaunch]⟩
      obtain rfl : l = launch := Option.some.inj (hl.symm.trans hlaunch)
      simp [World.exec, hbase]
  | @respond c a rsp ha hmay =>
    obtain rfl := h.eq_of_running hs hex ht hmay.1
    have hlt := (List.getElem?_eq_some_iff.1 ha).1
    obtain hdone | ⟨hfaults, -⟩ := hmay.2.2.2 (h.machine_eq ▸ hex.executes)
    · have hmem : w.mem = w.machine.carryOutAll m0 (w.accepted.take (c + 1)) := by
        rw [List.take_add_one, ha, Option.toList_some, carryOutAll_append, carryOutAll_cons,
          carryOutAll_nil]
        have hbusy := ht.busy a ha
        rw [hdone.1] at hbusy
        exact hbusy.finish hdone.2
      refine ⟨c + 1, hlt, fun b => ?_, fun _ => hmem, fun a' ha' => ?_⟩
      · by_cases hbc : b = c
        · simp [World.respond, hbc]
        · simp only [World.respond, update_of_ne hbc, ht.answered]
          omega
      · -- The next command has not started, as this one was not answered.
        have hfresh : w.started (c + 1) = false := by
          by_contra hstarted
          have hnone : w.answer (c + 1) = none := by
            by_contra hne
            have := (ht.answered (c + 1)).1 (Option.isSome_iff_ne_none.2 hne)
            omega
          have := h.eq_of_running hs hex ht
            (World.running_iff.2 ⟨by simpa using hstarted, hnone⟩)
          omega
        have hran : w.ran (c + 1) = false := by
          by_contra hran
          simp [hs.ran_started (c + 1) (by simpa using hran)] at hfresh
        change Halfway _ _ a' (w.left (c + 1)) (w.ran (c + 1)) w.mem
        rw [hs.left_unstarted (c + 1) a' ha' hfresh, hran, hmem]
        exact .start
    · simp [h.machine_eq, hex.faults] at hfaults

/-- One more command waits. -/
theorem turn_accept (h : w.Serial q machine m0) (hs : w.Sound) {sq : UInt16} {flags : UInt8}
    {cmd : Command} : ∃ n, (w.accept sq flags cmd).Turn m0 n := by
  obtain ⟨n, ht⟩ := h.turn
  have hle := ht.le
  have htake : (w.accept sq flags cmd).accepted.take n = w.accepted.take n :=
    List.take_append_of_le_length hle
  refine ⟨n, ?_, ht.answered, fun hlen => ?_, fun a ha => ?_⟩
  · simp only [World.accept, List.length_append, List.length_singleton]
    omega
  · simp only [World.accept, List.length_append, List.length_singleton] at hlen
    omega
  · rw [htake]
    obtain ha | ⟨rfl, rfl⟩ := World.Sound.getElem?_accept ha
    · have hlt := (List.getElem?_eq_some_iff.1 ha).1
      have hleft : (w.accept sq flags cmd).left n = w.left n := update_of_ne (by omega) ..
      rw [hleft]
      exact ht.busy a ha
    · have hleft : (w.accept sq flags cmd).left w.accepted.length = cmd.nodes := update_self ..
      have hran : w.ran w.accepted.length = false := (hs.fresh (Nat.le_refl _)).2.2.2
      change Halfway _ _ _ _ (w.ran w.accepted.length) w.mem
      rw [hleft, hran, ht.done rfl]
      exact .start

/-- A command that comes after reads only finds what the commands before them have made. -/
theorem mem_of_reading (h : w.Serial q machine m0) (hs : w.Sound) (hex : machine.Exact)
    {acc : List Accepted} (hacc : acc <+: w.accepted)
    (hreads : ∀ a ∈ w.accepted.drop acc.length, a.cmd.isWrite = false ∧ a.cmd.launch? = none)
    {c : ℕ} (hc : acc.length ≤ c) (hrun : w.running c = true) :
    w.mem = machine.carryOutAll m0 acc := by
  obtain ⟨n, ht⟩ := h.turn
  obtain rfl := h.eq_of_running hs hex ht hrun
  obtain ⟨more, hmore⟩ := hacc
  have hlt := hs.started_lt c (World.running_iff.1 hrun).1
  rw [← hmore, List.drop_left] at hreads
  have htake : w.accepted.take c = acc ++ more.take (c - acc.length) := by
    rw [← hmore, List.take_append, List.take_of_length_le hc]
  obtain ⟨a, ha⟩ : ∃ a, w.accepted[c]? = some a := ⟨_, List.getElem?_eq_getElem hlt⟩
  have hread : a.cmd.isWrite = false ∧ a.cmd.launch? = none := by
    apply hreads a
    rw [← hmore, List.getElem?_append_right hc] at ha
    exact List.mem_of_getElem? ha
  rw [(ht.busy a ha).read hread.2 hread.1, htake, carryOutAll_append, h.machine_eq]
  exact carryOutAll_of_reads fun a' ha' => hreads a' (List.mem_of_mem_take ha')

/-- Once all commands have been answered, nothing is left to be done. -/
theorem mem_of_answered (h : w.Serial q machine m0)
    (hall : ∀ c < w.accepted.length, (w.answer c).isSome = true) :
    w.mem = machine.carryOutAll m0 w.accepted := by
  obtain ⟨n, ht⟩ := h.turn
  have hle := ht.le
  have hn : w.accepted.length = n := by
    by_contra hne
    exact absurd ((ht.answered n).1 (hall n (by omega))) (Nat.lt_irrefl n)
  rw [ht.done hn, h.machine_eq, ← hn, List.take_length]

end World.Serial

theorem stable_serial {E : Env} {q : UInt16 × Bool} {machine : Machine} {m0 : Memory}
    (hex : machine.Exact) (hstrict : ∀ p, E.strict p)
    (hE : ∀ a, E.accepts a → a.Waits q) : Stable E (World.Serial q machine m0) := by
  intro w w' hs hst h
  have hall : E.strict = fun _ => True := by
    funext p
    exact propext ⟨fun _ => trivial, fun _ => hstrict p⟩
  have hdisciplined := stable_disciplined E w w' hs hst (hall ▸ h.disciplined)
  rw [hall] at hdisciplined
  refine ⟨hst.grows.machine.trans h.machine_eq, hdisciplined,
    stable_ordered E w w' hs hst h.ordered, ?_, ?_⟩
  · cases hst with
    | step d => simpa using h.waits
    | accept sq flags cmd haccepts =>
      intro a ha
      rcases List.mem_append.1 ha with ha | ha
      · exact h.waits a ha
      · exact List.mem_singleton.1 ha ▸ hE _ haccepts
    | _ => exact h.waits
  · cases hst with
    | step d =>
      obtain ⟨n, ht⟩ := h.turn_of_moves hs hex (w.act_moves d)
      exact ⟨n, ht.le, ht.answered, ht.done, ht.busy⟩
    | accept sq flags cmd => exact h.turn_accept hs
    | _ =>
      obtain ⟨n, ht⟩ := h.turn
      exact ⟨n, ht.le, ht.answered, ht.done, ht.busy⟩

theorem World.Serial.init (q : UInt16 × Bool) (machine : Machine) (mem : Memory) :
    (World.init machine mem).Serial q machine mem := by
  refine ⟨rfl, ⟨?_, ?_, ?_⟩, ?_, ?_, 0, ?_, ?_, ?_, ?_⟩
  all_goals simp [World.init, World.Mapped, World.OneWay, World.Steady, World.Uses, World.Ordered]

end EtSoc
