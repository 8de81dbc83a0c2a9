import EtSoc.Model.Dma
import EtSoc.Verification.Tags.Failures

/-! # The commands of a transfer

How the list nodes that stage one chunk lie in its buffer and in device memory. -/

namespace EtSoc

open Program

/-- The nodes transfer the bytes `[o, o')` of buffer `b`, in order, from or to the device
bytes at `addr`. -/
def Consecutive (b : BufId) (addr : ℕ) : ℕ → List DmaNode → ℕ → Prop
  | o, [], o' => o = o'
  | o, n :: ns, o' => n.hostVirtAddr = ⟨b, o⟩ ∧ n.devicePhyAddr = addr + o ∧ 0 < n.size ∧
      Consecutive b addr (o + n.size) ns o'

namespace Consecutive
variable {b : BufId} {addr o o' o'' : ℕ} {ns ms : List DmaNode} {n : DmaNode}

theorem append (h : Consecutive b addr o ns o') (h' : Consecutive b addr o' ms o'') :
    Consecutive b addr o (ns ++ ms) o'' := by
  induction ns generalizing o with
  | nil =>
    obtain rfl : o = o' := h
    exact h'
  | cons n ns ih => exact ⟨h.1, h.2.1, h.2.2.1, ih h.2.2.2⟩

theorem le (h : Consecutive b addr o ns o') : o ≤ o' := by
  induction ns generalizing o with
  | nil => exact Nat.le_of_eq h
  | cons n ns ih => exact Nat.le_trans (Nat.le_add_right ..) (ih h.2.2.2)

/-- Where a single node lies. -/
theorem mem (h : Consecutive b addr o ns o') (hn : n ∈ ns) :
    n.hostVirtAddr.buf = b ∧ n.devicePhyAddr = addr + n.hostVirtAddr.offset ∧
      o ≤ n.hostVirtAddr.offset ∧ n.hostVirtAddr.offset + n.size ≤ o' := by
  induction ns generalizing o with
  | nil => simp at hn
  | cons m ns ih =>
    obtain ⟨hvirt, haddr, -, htail⟩ := h
    rcases List.mem_cons.1 hn with rfl | hn
    · have := htail.le
      simp only [hvirt, haddr, Nat.le_refl, true_and]
      exact this
    · obtain ⟨hbuf, hdev, hlo, hhi⟩ := ih htail hn
      exact ⟨hbuf, hdev, by omega, hhi⟩

/-- No byte is left out. -/
theorem cover (h : Consecutive b addr o ns o') {x : ℕ} (hlo : o ≤ x) (hhi : x < o') :
    ∃ n ∈ ns, n.hostVirtAddr.offset ≤ x ∧ x < n.hostVirtAddr.offset + n.size := by
  induction ns generalizing o with
  | nil =>
    obtain rfl : o = o' := h
    omega
  | cons n ns ih =>
    obtain ⟨hvirt, -, -, htail⟩ := h
    by_cases hx : x < o + n.size
    · exact ⟨n, by simp, by simpa [hvirt] using hlo, by simpa [hvirt] using hx⟩
    · obtain ⟨m, hm, hspan⟩ := ih htail (by omega)
      exact ⟨m, List.mem_cons_of_mem _ hm, hspan⟩

/-- What comes after some nodes is not at the beginning. -/
theorem offset_pos (h : Consecutive b addr o (ms ++ n :: ns) o') (hms : ms ≠ []) :
    0 < n.hostVirtAddr.offset := by
  obtain ⟨m, ms, rfl⟩ := List.exists_cons_of_ne_nil hms
  obtain ⟨-, -, hsize, htail⟩ := h
  have := (htail.mem (n := n) (by simp)).2.2.1
  omega

end Consecutive

def Direction.body (direction : Direction) (nodes : List DmaNode) : Body :=
  match direction with
  | .read => .dmaReadlist nodes
  | .write => .dmaWritelist nodes

/-- A list command as the staging functions push it. -/
structure ListCommand (direction : Direction) (sqIndex : UInt16) (nodes : List DmaNode)
    (a : Accepted) : Prop where
  sqIndex : a.sqIndex = sqIndex
  descFlags : a.descFlags = DescFlags.dma
  flags : a.cmd.header.flags = CmdFlags.barrier
  body : a.cmd.body = direction.body nodes

namespace ListCommand
variable {direction : Direction} {sqIndex : UInt16} {nodes : List DmaNode} {a : Accepted}

theorem nodes_eq (h : ListCommand direction sqIndex nodes a) : a.cmd.nodes = nodes := by
  rw [Command.nodes, h.body]
  cases direction <;> rfl

theorem isWrite_eq (h : ListCommand direction sqIndex nodes a) :
    a.cmd.isWrite = (direction == .write) := by
  rw [Command.isWrite, h.body]
  cases direction <;> rfl

theorem launch?_eq (h : ListCommand direction sqIndex nodes a) : a.cmd.launch? = none := by
  rw [Command.launch?, h.body]
  cases direction <;> rfl

theorem barrier_eq (h : ListCommand direction sqIndex nodes a) : a.cmd.barrier = true := by
  rw [Command.barrier, h.flags]
  decide

theorem queue_eq (h : ListCommand direction sqIndex nodes a) : a.queue = (sqIndex, false) := by
  rw [Accepted.queue, h.descFlags, h.sqIndex]
  rfl

end ListCommand

theorem buildDmaList_eq_some {direction : Direction} {tag : Tag} {nodes : List DmaNode}
    {cmd : Command} (h : buildDmaList direction tag CmdFlags.barrier nodes = some cmd)
    (sqIndex : UInt16) (host : BufId → Memory) :
    cmd.tagId = tag ∧ ListCommand direction sqIndex nodes ⟨sqIndex, DescFlags.dma, cmd, host⟩ := by
  cases direction <;>
    · simp only [buildDmaList, buildDmaReadlist, buildDmaWritelist, command,
        Option.map_eq_some_iff] at h
      obtain ⟨size, -, rfl⟩ := h
      exact ⟨rfl, rfl, rfl, rfl, rfl⟩

/-- The commands `own` stage the first `len` bytes of buffer `b`. -/
structure Stages (direction : Direction) (sqIndex : UInt16) (b : BufId) (addr : ℕ)
    (own : List Accepted) (len : ℕ) : Prop where
  list : ∀ a ∈ own, ∃ nodes, nodes ≠ [] ∧ ListCommand direction sqIndex nodes a
  nodes : Consecutive b addr 0 (own.flatMap (·.cmd.nodes)) len

namespace Stages
variable {direction : Direction} {sqIndex : UInt16} {b : BufId} {addr len len' : ℕ}
  {own : List Accepted} {a : Accepted} {nodes : List DmaNode} {n : DmaNode}

theorem nil : Stages direction sqIndex b addr [] 0 := ⟨by simp, rfl⟩

theorem snoc (h : Stages direction sqIndex b addr own len)
    (ha : ListCommand direction sqIndex nodes a) (hne : nodes ≠ [])
    (hn : Consecutive b addr len nodes len') :
    Stages direction sqIndex b addr (own ++ [a]) len' := by
  refine ⟨fun a' ha' => ?_, ?_⟩
  · rcases List.mem_append.1 ha' with ha' | ha'
    · exact h.list a' ha'
    · obtain rfl := List.mem_singleton.1 ha'
      exact ⟨nodes, hne, ha⟩
  · simpa [ha.nodes_eq] using h.nodes.append hn

theorem mem (h : Stages direction sqIndex b addr own len) (ha : a ∈ own) (hn : n ∈ a.cmd.nodes) :
    n.hostVirtAddr.buf = b ∧ n.devicePhyAddr = addr + n.hostVirtAddr.offset ∧
      n.hostVirtAddr.offset + n.size ≤ len := by
  obtain ⟨hbuf, hdev, -, hlen⟩ := h.nodes.mem (List.mem_flatMap.2 ⟨a, ha, hn⟩)
  exact ⟨hbuf, hdev, hlen⟩

/-- The nodes before a command take the beginning of the buffer. -/
theorem oneChunk (h : Stages direction sqIndex b addr own len) : OneChunk own := by
  intro i a hi ha
  obtain ⟨hlt, rfl⟩ := List.getElem?_eq_some_iff.1 ha
  have hfirst : own[0] ∈ own := List.getElem_mem _
  obtain ⟨nodes, hne, hlist⟩ := h.list _ (List.getElem_mem hlt)
  obtain ⟨nodes₀, hne₀, hlist₀⟩ := h.list _ hfirst
  rw [← hlist.nodes_eq] at hne
  rw [← hlist₀.nodes_eq] at hne₀
  obtain ⟨n, ns, hnodes⟩ := List.exists_cons_of_ne_nil hne
  have hsplit : own = own.take i ++ own[i] :: own.drop (i + 1) := by simp
  have hconsecutive := h.nodes
  rw [hsplit, List.flatMap_append, List.flatMap_cons, hnodes] at hconsecutive
  have hpos : (own.take i).flatMap (·.cmd.nodes) ≠ [] := by
    obtain ⟨m, ms, hm⟩ := List.exists_cons_of_ne_nil hne₀
    refine List.ne_nil_of_mem (a := m) (List.mem_flatMap.2 ⟨own[0], ?_, by simp [hm]⟩)
    exact List.mem_of_getElem? (i := 0) (by rw [List.getElem?_take, if_pos hi,
      List.getElem?_eq_getElem])
  have hoffset := hconsecutive.offset_pos hpos
  rw [Accepted.continues, hnodes]
  simpa using Nat.ne_of_gt hoffset

theorem cover (h : Stages direction sqIndex b addr own len) {x : ℕ} (hx : x < len) :
    ∃ a ∈ own, ∃ n ∈ a.cmd.nodes,
      n.hostVirtAddr.offset ≤ x ∧ x < n.hostVirtAddr.offset + n.size := by
  obtain ⟨n, hn, hspan⟩ := h.nodes.cover (Nat.zero_le x) hx
  obtain ⟨a, ha, hn⟩ := List.mem_flatMap.1 hn
  exact ⟨a, ha, n, hn, hspan⟩

end Stages

/-! ## The loop of the staging functions -/

/-- The nodes of one command, for the bytes `[off, off')` of the buffer. -/
structure Gathered (b : BufId) (addr maxElem maxNodes off : ℕ) (nodes : List DmaNode) (off' : ℕ) :
    Prop where
  consecutive : Consecutive b addr off nodes off'
  fits : ∀ n ∈ nodes, n.hostPhyAddr < 2 ^ 64 ∧ n.devicePhyAddr < 2 ^ 64 ∧
    0 < n.size ∧ n.size ≤ maxElem
  count : 1 ≤ maxNodes → nodes.length ≤ maxNodes

section
variable {direction : Direction} {host : DmaHostBuffer} {len addr : ℕ} {opts : DmaOptions}
  {maxElem maxNodes : ℕ} {P : ℕ → Sys → Prop} {E : Error → Sys → Prop} {S : Stop → Sys → Prop}

/-- `P off` is known once the first `off` bytes are taken care of. The loop ends with all of
them, or as the first command that could not be pushed. -/
theorem pushStagedFrom_triple (hmax : 1 ≤ maxElem)
    (hpanic : ∀ off s, (host.physAddr ≠ 0 ∧ 2 ^ 64 < host.physAddr + len) ∨ 2 ^ 64 < addr + len →
      P off s → S (.panic "attempt to add with overflow") s)
    (hlist : ∀ off nodes off', Gathered host.id addr maxElem maxNodes off nodes off' →
      nodes ≠ [] → off' ≤ len → Triple (P off) (pushList direction opts.sqIndex nodes)
        ⟨fun _ => P off', E, S⟩) (n : ℕ) :
    ∀ off₀ off nodes, len ≤ off + n → off ≤ len → (len ≤ off → off₀ = off) →
      Gathered host.id addr maxElem maxNodes off₀ nodes off →
      (1 ≤ maxNodes → nodes.length < maxNodes) →
      Triple (P off₀) (pushStagedFrom direction host len addr opts maxElem maxNodes n off nodes)
        ⟨fun _ => P len, E, S⟩ := by
  induction n with
  | zero =>
    intro off₀ off nodes hn hle hend _ _
    obtain rfl : off₀ = off := hend (by omega)
    obtain rfl : off₀ = len := by omega
    exact .pure fun _ h => h
  | succ n ih =>
    intro off₀ off nodes hn hle hend hnodes hcount
    have hle₀ : off₀ ≤ off := hnodes.consecutive.le
    refine .ite (fun hlt => ?_) fun hge => ?_
    · refine .bind (R := fun phys s => phys < 2 ^ 64 ∧ P off₀ s) ?_ fun phys =>
        .and_pre fun hphys => ?_
      · refine .ite (fun _ => .pure fun _ h => ⟨by omega, h⟩) fun hne => ?_
        exact .ite (fun hlt => .pure fun _ h => ⟨hlt, h⟩) fun hover =>
          .panic (hpanic _ · (.inl ⟨hne, by omega⟩))
      refine .bind (R := fun device s => (device = addr + off ∧ device < 2 ^ 64) ∧ P off₀ s)
        (.ite (fun hlt => .pure fun _ h => ⟨⟨rfl, hlt⟩, h⟩) fun hover =>
          .panic (hpanic _ · (.inr (by omega))))
        fun device => .and_pre fun ⟨hdevice, hfits⟩ => ?_
      subst hdevice
      have hsize : 0 < min (len - off) maxElem := by omega
      have hnodes' : Gathered host.id addr maxElem maxNodes off₀
          (nodes ++ [⟨⟨host.id, off⟩, phys, addr + off, min (len - off) maxElem⟩])
          (off + min (len - off) maxElem) := by
        refine ⟨hnodes.consecutive.append ⟨rfl, rfl, hsize, rfl⟩, fun n hn => ?_, fun hpos => ?_⟩
        · rcases List.mem_append.1 hn with hn | hn
          · exact hnodes.fits n hn
          · obtain rfl := List.mem_singleton.1 hn
            exact ⟨hphys, hfits, hsize, Nat.min_le_right ..⟩
        · rw [List.length_append, List.length_singleton]
          exact hcount hpos
      refine .ite (fun _ => ?_) fun hmore => ?_
      · refine .bind (hlist off₀ _ _ hnodes' (by simp) (by omega)) fun _ => ?_
        exact ih _ _ [] (by omega) (by omega) (fun _ => rfl) ⟨rfl, by simp, by simp⟩
          fun hpos => hpos
      · obtain ⟨hne, hmore⟩ := not_or.1 hmore
        refine ih off₀ _ _ (by omega) (by omega) (fun _ => by omega) hnodes' fun hpos => ?_
        exact Nat.lt_of_le_of_ne (hnodes'.count hpos) hne
    · obtain rfl : off₀ = off := hend (by omega)
      obtain rfl : off₀ = len := by omega
      exact .pure fun _ h => h

end

end EtSoc
