import EtSoc.Verification.Dma.Await
import EtSoc.Verification.World.Memory

/-! # One chunk of a transfer

What a buffer holds while the commands of a chunk are pushed, and until they are done. -/

namespace EtSoc

open Function Program

/-- A list command that transfers between the buffers `bufs` and the device bytes
`[addr, addr + total)`. -/
structure Carries (direction : Direction) (sqIndex : UInt16) (bufs : BufId → Prop)
    (addr total : ℕ) (a : Accepted) : Prop where
  list : ∃ nodes, ListCommand direction sqIndex nodes a
  within : ∀ n ∈ a.cmd.nodes, bufs n.hostVirtAddr.buf ∧ addr ≤ n.devicePhyAddr ∧
    n.devicePhyAddr + n.size ≤ addr + total

section
variable {direction : Direction} {sqIndex : UInt16} {bufs : BufId → Prop} {addr len total : ℕ}
  {a : Accepted} {b : BufId} {nodes : List DmaNode} {own : List Accepted}

theorem Carries.mono {bufs' : BufId → Prop} {addr' total' : ℕ}
    (h : Carries direction sqIndex bufs addr total a) (hb : ∀ b, bufs b → bufs' b)
    (hlo : addr' ≤ addr) (hhi : addr + total ≤ addr' + total') :
    Carries direction sqIndex bufs' addr' total' a :=
  ⟨h.list, fun n hn => by
    obtain ⟨hbuf, hle, hlt⟩ := h.within n hn
    exact ⟨hb _ hbuf, by omega, by omega⟩⟩

theorem ListCommand.carries {o o' : ℕ} (h : ListCommand direction sqIndex nodes a)
    (hn : Consecutive b addr o nodes o') (ho : o' ≤ len) :
    Carries direction sqIndex (· = b) addr len a := by
  refine ⟨⟨nodes, h⟩, fun n hmem => ?_⟩
  rw [h.nodes_eq] at hmem
  obtain ⟨hbuf, hdev, -, hle⟩ := hn.mem hmem
  exact ⟨hbuf, by omega, by omega⟩

theorem Stages.carries {off : ℕ} (h : Stages direction sqIndex b addr own off) (hoff : off ≤ len)
    (ha : a ∈ own) : Carries direction sqIndex (· = b) addr len a := by
  refine ⟨(h.list a ha).imp fun _ => And.right, fun n hn => ?_⟩
  obtain ⟨hbuf, hdev, hle⟩ := h.mem ha hn
  exact ⟨hbuf, by omega, by omega⟩

theorem Carries.isWrite_eq (h : Carries direction sqIndex bufs addr total a) :
    a.cmd.isWrite = (direction == .write) := by
  obtain ⟨nodes, h⟩ := h.list
  exact h.isWrite_eq

theorem Carries.launch?_eq (h : Carries direction sqIndex bufs addr total a) :
    a.cmd.launch? = none := by
  obtain ⟨nodes, h⟩ := h.list
  exact h.launch?_eq

end

/-! ## Host to device -/

/-- The buffer holds the chunk, and is only sent from. -/
structure Loaded (E : Env) (B : World → Prop) (buf : BufId) (addr len : ℕ) (data : Memory)
    (w : World) : Prop where
  base : B w
  mapped : buf.serial < w.nextBuf
  only : E.strict buf.purpose → w.Only true buf
  contents : E.strict buf.purpose → ∀ k < len, w.host buf k = data (addr + k)

variable {E : Env} {B : World → Prop} {acc : List Accepted} {fr : Frame} {rest : List Tag}
  {addr len : ℕ} {data : Memory}

theorem patient_loaded {buf : BufId} (hB : Patient B) :
    Patient (Loaded E B buf addr len data) := by
  refine ⟨fun w d hs h => ⟨hB.step w d hs h.base, by simpa using h.mapped, fun hstrict => ?_,
    fun hstrict k hk => ?_⟩, fun w c rsp hs hr h => ⟨hB.pop w c rsp hs hr h.base, h.mapped,
    h.only, h.contents⟩⟩
  · exact (World.patient_only true buf).step w d hs (h.only hstrict)
  · have := (World.patient_sending buf (w.host buf)).step w d hs ⟨h.only hstrict, rfl⟩
    rw [this.2]
    exact h.contents hstrict k hk

/-- `G` lasts while the commands of a chunk are accepted. -/
def Tolerates (E : Env) (G : World → Prop) (direction : Direction) (sqIndex : UInt16)
    (buf : BufId) (addr len : ℕ) : Prop :=
  ∀ w a, w.Sound → G w → Carries direction sqIndex (· = buf) addr len a →
    Stride E w (w.accept a.sqIndex a.descFlags a.cmd) → G (w.accept a.sqIndex a.descFlags a.cmd)

/-- The commands of a chunk carry what its buffer holds. -/
theorem pushWrite_spec {G : World → Prop} {host : DmaHostBuffer} {opts : DmaOptions}
    (hB : Stable E B) (hG : Patient G) (htol : Tolerates E G .write opts.sqIndex host.id addr len)
    (hE : ∀ a, Carries .write opts.sqIndex (· = host.id) addr len a →
      (E.strict host.id.purpose → Payload data a) → a.cmd.tagId ∉ rest → E.accepts a) :
    Triple (Tidy (fun w => (Loaded E B host.id addr len data w ∧ G w) ∧ w.accepted = acc) fr rest)
      (pushDmaWriteStaged host len addr opts)
      (Ends (fun _ s => ∃ own, (∀ a ∈ own, E.strict host.id.purpose → Payload data a) ∧
          Staged (fun w => Loaded E B host.id addr len data w ∧ G w) fr rest acc .write
            opts.sqIndex host addr len own s)
        fun _ s => ∃ own off, off ≤ len ∧
          (∀ a ∈ own, E.strict host.id.purpose → Payload data a) ∧
          Staged (fun w => Loaded E B host.id addr len data w ∧ G w) fr rest acc .write
            opts.sqIndex host addr off own s) := by
  let B' : World → Prop := fun w => (Loaded E B host.id addr len data w ∧ G w) ∧
    ∀ a ∈ w.accepted.drop acc.length, E.strict host.id.purpose → Payload data a
  have hpat : Patient B' := ((patient_loaded hB.patient).and hG).and
    ⟨fun w d _ h => by simpa using h, fun _ _ _ _ _ h => h⟩
  have hadm : AdmitsChunk B' acc .write opts.sqIndex rest host addr len := by
    intro own off nodes off' hstages hn hoff w a hs hB' hacc ha hthen hfresh
    obtain ⟨⟨hw, hGw⟩, hpay⟩ := hB'
    have hcarries := ha.carries hn hoff
    have hpayload : E.strict host.id.purpose → Payload data a := by
      intro hstrict n hmem k hk
      rw [ha.nodes_eq] at hmem
      obtain ⟨hbuf, hdev, -, hle⟩ := hn.mem hmem
      rw [hthen, hbuf, hw.contents hstrict _ (by omega), hdev]
      congr 1
      omega
    have hisWrite : a.cmd.isWrite = true := hcarries.isWrite_eq
    have hstride : Stride E w (w.accept a.sqIndex a.descFlags a.cmd) := by
      refine .accept _ _ _ ?_ (fun n hmem hstrict c a' huse => ?_) fun n hmem => ?_
      · rw [← hthen]
        exact hE a hcarries hpayload hfresh
      · have hbuf := (hcarries.within n hmem).1
        rw [hbuf] at huse hstrict
        rw [hw.only hstrict c a' huse, hisWrite]
      · rw [(hcarries.within n hmem).1]
        exact hw.mapped
    refine ⟨⟨⟨hB w _ hs hstride hw.base, hw.mapped,
      fun hstrict => (hw.only hstrict).accept hisWrite, hw.contents⟩, htol w a hs hGw hcarries hstride⟩,
      fun a' ha' => ?_⟩
    have hle : acc.length ≤ w.accepted.length := by simp [hacc]
    simp only [World.accept, List.drop_append_of_le_length hle, List.mem_append,
      List.mem_singleton] at ha'
    obtain ha' | rfl := ha'
    · exact hpay a' ha'
    · rwa [← hthen]
  have hpost : ∀ {off own s}, Staged B' fr rest acc .write opts.sqIndex host addr off own s →
      (∀ a ∈ own, E.strict host.id.purpose → Payload data a) ∧
        Staged (fun w => Loaded E B host.id addr len data w ∧ G w) fr rest acc .write
          opts.sqIndex host addr off own s := by
    intro off own s h
    refine ⟨?_, h.1, h.2.mono fun w hw => ⟨hw.1.1, hw.2⟩⟩
    have hpay := h.2.world.1.2
    rwa [h.2.world.2, List.drop_left] at hpay
  refine (pushDmaStaged_spec hpat hadm).conseq (fun s hs => hs.mono fun w hw => ?_)
    (fun _ s hs => ?_) (fun _ s hs => ?_) fun _ h => h
  · exact ⟨⟨hw.1, by simp [hw.2]⟩, hw.2⟩
  · obtain ⟨own, h⟩ := hs
    exact ⟨own, hpost h⟩
  · obtain ⟨own, off, hoff, h⟩ := hs
    exact ⟨own, off, hoff, hpost h⟩

/-! ## Device to host -/

/-- The bytes of device memory that are known to be those of `M` whenever one of the read
commands accepted after `acc₀` is carried out. -/
structure Shows (E : Env) (B : World → Prop) (acc₀ : List Accepted) (M : Memory)
    (good : ℕ → Prop) : Prop where
  strict : ∀ x, good x → ∀ p, E.strict p
  executes : ∀ x, good x → ∀ w, B w → w.machine.executes = true
  mem : ∀ w : World, w.Sound → B w → acc₀ <+: w.accepted →
    (∀ a ∈ w.accepted.drop acc₀.length, a.cmd.isWrite = false ∧ a.cmd.launch? = none) →
    ∀ c ≥ acc₀.length, w.running c = true → ∀ x, good x → w.mem x = M x

/-- A buffer into which the commands from `acc` on read a chunk of a transfer that started
at `acc₀`. -/
structure Fetching (E : Env) (B : World → Prop) (acc₀ acc : List Accepted) (buf : BufId)
    (addr : ℕ) (M : Memory) (good : ℕ → Prop) (w : World) : Prop where
  base : B w
  mapped : buf.serial < w.nextBuf
  started : acc₀ <+: acc
  accepted : acc <+: w.accepted
  reads : ∀ a ∈ w.accepted.drop acc₀.length, a.cmd.isWrite = false ∧ a.cmd.launch? = none
  only : E.strict buf.purpose → w.Only false buf
  vacant : E.strict buf.purpose → w.Vacant acc buf
  agree : ∀ c a, acc.length ≤ c → w.accepted[c]? = some a → ∀ n ∈ a.cmd.nodes,
    n.hostVirtAddr.buf = buf → n.devicePhyAddr = addr + n.hostVirtAddr.offset
  fetched : ∀ c a, acc.length ≤ c → w.accepted[c]? = some a → ∀ n ∈ a.cmd.nodes,
    n.hostVirtAddr.buf = buf → n ∉ w.left c → ∀ k < n.size, good (n.devicePhyAddr + k) →
      w.host buf (n.hostVirtAddr.offset + k) = M (n.devicePhyAddr + k)

namespace Fetching
variable {acc₀ : List Accepted} {buf : BufId} {M : Memory} {good : ℕ → Prop} {w : World}

/-- The start of a chunk, on a buffer that is not in use. -/
theorem init (hB : B w) (hmapped : buf.serial < w.nextBuf) (hstart : acc₀ <+: w.accepted)
    (hreads : ∀ a ∈ w.accepted.drop acc₀.length, a.cmd.isWrite = false ∧ a.cmd.launch? = none)
    (hvacant : E.strict buf.purpose → w.Vacant w.accepted buf) :
    Fetching E B acc₀ w.accepted buf addr M good w := by
  have hlate : ∀ c a, w.accepted.length ≤ c → w.accepted[c]? ≠ some a := fun c a hc ha => by
    rw [List.getElem?_eq_none hc] at ha
    simp at ha
  exact ⟨hB, hmapped, hstart, List.prefix_rfl, hreads,
    fun hstrict => (World.vacant_accepted.1 (hvacant hstrict)).only false, hvacant,
    fun c a hc ha => absurd ha (hlate c a hc), fun c a hc ha => absurd ha (hlate c a hc)⟩

theorem step (hs : w.Sound) (hB : Patient B) (hshows : Shows E B acc₀ M good) (d : World.DevStep)
    (h : Fetching E B acc₀ acc buf addr M good w) :
    Fetching E B acc₀ acc buf addr M good (w.step d) := by
  have hbase := hB.step w d hs h.base
  have hm := w.act_moves d
  rw [World.step] at hbase ⊢
  generalize w.act d = w' at hm hbase ⊢
  have hacc : w'.snapshot.accepted = w.accepted := hm.accepted
  have hnext : w'.snapshot.nextBuf = w.nextBuf := hm.nextBuf
  refine ⟨hbase, by rw [hnext]; exact h.mapped, h.started, by rw [hacc]; exact h.accepted,
    by rw [hacc]; exact h.reads, fun hstrict c a huse => ?_,
    fun hstrict c a ha hn => ?_, by rw [hacc]; exact h.agree,
    fun c a hc ha n hn hbuf hleft k hk hgood => ?_⟩
  · obtain ⟨ha, hc, hn⟩ := huse
    exact h.only hstrict c a ⟨by rwa [hacc] at ha, hm.answer_none hc, hn⟩
  · obtain ⟨rsp, hrsp⟩ := Option.isSome_iff_exists.1 (h.vacant hstrict c a ha hn)
    exact Option.isSome_iff_exists.2 ⟨rsp, hm.answer hrsp⟩
  · change n ∉ w'.left c at hleft
    change w'.host buf _ = _
    rw [hacc] at ha
    have hstrict := hshows.strict _ hgood buf.purpose
    cases hm with
    | @copy c' a' node ha' hnode hrun =>
      -- Only a command of this chunk can be transferring the buffer.
      have hmem := hs.left_subset c' a' ha' node hnode
      cases hw : a'.cmd.isWrite with
      | true =>
        rw [World.copy_host_of_write]
        refine h.fetched c a hc ha n hn hbuf (fun hin => ?_) k hk hgood
        by_cases hcc : c = c'
        · subst hcc
          obtain rfl : a = a' := Option.some.inj (ha.symm.trans ha')
          have hle := h.started.length_le
          have := (h.reads a (List.mem_of_getElem? (i := c - acc₀.length) (by
            rw [List.getElem?_drop, show acc₀.length + (c - acc₀.length) = c by omega]
            exact ha))).1
          simp [hw] at this
        · exact hleft (by simpa [update_of_ne hcc] using hin)
      | false =>
        rw [World.copy_host_of_read]
        by_cases hother : buf = node.hostVirtAddr.buf
        · have huse : w.Uses buf c' a' :=
            ⟨ha', (World.running_iff.1 hrun).2, node, hmem, hother.symm⟩
          have hc' : acc.length ≤ c' := by
            by_contra hlt
            have hget : acc[c']? = some a' := by
              rw [← ha']
              obtain ⟨more, hmore⟩ := h.accepted
              rw [← hmore, List.getElem?_append_left (by omega)]
            have := h.vacant hstrict c' a' hget ⟨node, hmem, hother.symm⟩
            simp [huse.2.1] at this
          have hdev := h.agree c' a' hc' ha' node hmem hother.symm
          have hdev' := h.agree c a hc ha n hn hbuf
          rw [← hother, update_self]
          by_cases hin : node.hostVirtAddr.offset ≤ n.hostVirtAddr.offset + k ∧
              n.hostVirtAddr.offset + k < node.hostVirtAddr.offset + node.size
          · rw [Spans.blit_inside hin.1 hin.2]
            have hle := h.started.length_le
            rw [show node.devicePhyAddr + (n.hostVirtAddr.offset + k - node.hostVirtAddr.offset)
              = n.devicePhyAddr + k by omega]
            exact hshows.mem w hs h.base (h.started.trans h.accepted) h.reads c' (by omega) hrun _
              hgood
          · rw [Spans.blit_outside hin]
            refine h.fetched c a hc ha n hn hbuf (fun hleft' => hleft ?_) k hk hgood
            by_cases hcc : c = c'
            · subst hcc
              rw [World.copy_left, update_self]
              refine (List.mem_erase_of_ne fun heq => hin ?_).2 hleft'
              subst heq
              omega
            · simpa [update_of_ne hcc] using hleft'
        · rw [update_of_ne hother]
          refine h.fetched c a hc ha n hn hbuf (fun hleft' => hleft ?_) k hk hgood
          by_cases hcc : c = c'
          · subst hcc
            rw [World.copy_left, update_self]
            refine (List.mem_erase_of_ne fun heq => hother ?_).2 hleft'
            rw [← heq, hbuf]
          · simpa [update_of_ne hcc] using hleft'
    | _ => exact h.fetched c a hc ha n hn hbuf hleft k hk hgood

theorem patient (hB : Patient B) (hshows : Shows E B acc₀ M good) :
    Patient (Fetching E B acc₀ acc buf addr M good) := by
  exact ⟨fun w d hs h => h.step hs hB hshows d, fun w c rsp hs hr h =>
    ⟨hB.pop w c rsp hs hr h.base, h.mapped, h.started, h.accepted, h.reads, h.only, h.vacant,
      h.agree, h.fetched⟩⟩

/-- More read commands may come, if those on this buffer are of the same chunk. -/
theorem accept (hs : w.Sound) (hB : Stable E B) {a : Accepted}
    (hstride : Stride E w (w.accept a.sqIndex a.descFlags a.cmd)) {sq : UInt16}
    {bufs : BufId → Prop} {src total : ℕ} (ha : Carries .read sq bufs src total a)
    (hagree : ∀ n ∈ a.cmd.nodes, n.hostVirtAddr.buf = buf →
      n.devicePhyAddr = addr + n.hostVirtAddr.offset)
    (h : Fetching E B acc₀ acc buf addr M good w) :
    Fetching E B acc₀ acc buf addr M good (w.accept a.sqIndex a.descFlags a.cmd) := by
  have hread : a.cmd.isWrite = false := ha.isWrite_eq
  have hle : acc₀.length ≤ w.accepted.length := (h.started.trans h.accepted).length_le
  refine ⟨hB w _ hs hstride h.base, h.mapped, h.started, h.accepted.trans (List.prefix_append ..),
    fun a' ha' => ?_, fun hstrict => (h.only hstrict).accept hread,
    fun hstrict => h.vacant hstrict, fun c a' hc ha' n hn hbuf => ?_,
    fun c a' hc ha' n hn hbuf hleft k hk hgood => ?_⟩
  · simp only [World.accept, List.drop_append_of_le_length hle, List.mem_append,
      List.mem_singleton] at ha'
    obtain ha' | rfl := ha'
    · exact h.reads a' ha'
    · exact ⟨hread, ha.launch?_eq⟩
  · obtain ha' | ⟨-, rfl⟩ := World.Sound.getElem?_accept ha'
    · exact h.agree c a' hc ha' n hn hbuf
    · exact hagree n hn hbuf
  · obtain ha' | ⟨rfl, rfl⟩ := World.Sound.getElem?_accept ha'
    · refine h.fetched c a' hc ha' n hn hbuf ?_ k hk hgood
      have hlt := (List.getElem?_eq_some_iff.1 ha').1
      simpa [World.accept, update_of_ne (Nat.ne_of_lt hlt)] using hleft
    · simp [World.accept] at hleft
      exact absurd hn hleft

/-- A byte whose commands are done has arrived. -/
theorem arrived (hs : w.Sound) (hshows : Shows E B acc₀ M good) {own : List Accepted} {sq : UInt16}
    (h : Fetching E B acc₀ acc buf addr M good w) (hown : acc ++ own <+: w.accepted)
    (hstages : Stages .read sq buf addr own len)
    (hdone : w.CompletedFrom acc.length (acc.length + own.length)) {k : ℕ} (hk : k < len)
    (hgood : good (addr + k)) : w.host buf k = M (addr + k) := by
  obtain ⟨a, ha, n, hn, hlo, hhi⟩ := hstages.cover hk
  obtain ⟨hbuf, hdev, -⟩ := hstages.mem ha hn
  obtain ⟨j, hj⟩ := List.getElem?_of_mem ha
  have hjlt := (List.getElem?_eq_some_iff.1 hj).1
  have hget : w.accepted[acc.length + j]? = some a := by
    obtain ⟨more, hmore⟩ := hown
    rw [← hmore, List.append_assoc, List.getElem?_append_right (by omega),
      List.getElem?_append_left (by omega), Nat.add_sub_cancel_left, hj]
  obtain ⟨-, rsp, hrsp, hsucc⟩ := hdone (acc.length + j) (by omega) (by omega)
  have hleft : w.left (acc.length + j) = [] := by
    obtain hwork | ⟨-, hfail⟩ := hs.worked (hshows.executes _ hgood w h.base) _ a rsp hget hrsp
    · exact hwork.1
    · exact absurd hsucc hfail
  have hfetched := h.fetched (acc.length + j) a (by omega) hget n hn hbuf (by simp [hleft])
    (k - n.hostVirtAddr.offset) (by omega)
  rw [show n.hostVirtAddr.offset + (k - n.hostVirtAddr.offset) = k by omega,
    show n.devicePhyAddr + (k - n.hostVirtAddr.offset) = addr + k by omega] at hfetched
  exact hfetched hgood

end Fetching

theorem pushRead_spec {G : World → Prop} {acc₀ : List Accepted} {M : Memory} {good : ℕ → Prop}
    {host : DmaHostBuffer} {opts : DmaOptions} (hB : Stable E B) (hG : Patient G)
    (htol : Tolerates E G .read opts.sqIndex host.id addr len) (hshows : Shows E B acc₀ M good)
    (hE : ∀ a, Carries .read opts.sqIndex (· = host.id) addr len a → a.cmd.tagId ∉ rest →
      E.accepts a) :
    Triple (Tidy (fun w => (Fetching E B acc₀ acc host.id addr M good w ∧ G w) ∧ w.accepted = acc)
        fr rest)
      (pushDmaReadStaged host len addr opts)
      (Ends (fun _ s => ∃ own, Staged (fun w => Fetching E B acc₀ acc host.id addr M good w ∧ G w)
          fr rest acc .read opts.sqIndex host addr len own s)
        fun _ s => ∃ own off, off ≤ len ∧
          Staged (fun w => Fetching E B acc₀ acc host.id addr M good w ∧ G w) fr rest acc .read
            opts.sqIndex host addr off own s) := by
  refine pushDmaStaged_spec ((Fetching.patient hB.patient hshows).and hG) ?_
  intro own off nodes off' hstages hn hoff w a hs ⟨hw, hGw⟩ hacc ha hthen hfresh
  have hcarries := ha.carries hn hoff
  have hread : a.cmd.isWrite = false := hcarries.isWrite_eq
  have hstride : Stride E w (w.accept a.sqIndex a.descFlags a.cmd) := by
    refine .accept _ _ _ ?_ (fun n hmem hstrict c a' huse => ?_) fun n hmem => ?_
    · rw [← hthen]
      exact hE a hcarries hfresh
    · have hbuf := (hcarries.within n hmem).1
      rw [hbuf] at huse hstrict
      rw [hw.only hstrict c a' huse, hread]
    · rw [(hcarries.within n hmem).1]
      exact hw.mapped
  refine ⟨hw.accept hs hB hstride hcarries fun n hmem _ => ?_, htol w a hs hGw hcarries hstride⟩
  rw [ha.nodes_eq] at hmem
  exact (hn.mem hmem).2.1

end EtSoc
