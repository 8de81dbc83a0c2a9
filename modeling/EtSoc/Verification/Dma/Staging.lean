import EtSoc.Verification.Dma.Download
import EtSoc.Verification.Dma.Upload

/-! # The staging buffers -/

namespace EtSoc

open Function Program

/-- The responses to the first commands that use `b` were all popped. -/
def World.Released (w : World) (commands : List Accepted) (b : BufId) : Prop :=
  ∀ c a, commands[c]? = some a → (∃ n ∈ a.cmd.nodes, n.hostVirtAddr.buf = b) → w.popped c = true

theorem stable_released (E : Env) (commands : List Accepted) (b : BufId) :
    Stable E fun w => w.Released commands b :=
  fun _ _ _ hst h c a ha hn => hst.grows.popped c (h c a ha hn)

theorem World.Released.vacant {w : World} {commands : List Accepted} {b : BufId}
    (h : w.Released commands b) (hs : w.Sound) : w.Vacant commands b := by
  intro c a ha hn
  obtain ⟨rsp, hrsp⟩ := hs.popped_answered c (h c a ha hn)
  simp [hrsp]

theorem World.Released.append {w : World} {acc own : List Accepted} {b : BufId}
    (h : w.Released acc b)
    (hown : ∀ c a, acc.length ≤ c → (acc ++ own)[c]? = some a →
      (∃ n ∈ a.cmd.nodes, n.hostVirtAddr.buf = b) → w.popped c = true) :
    w.Released (acc ++ own) b := by
  intro c a ha hn
  obtain hlt | hge := Nat.lt_or_ge c acc.length
  · exact h c a (by rwa [List.getElem?_append_left hlt] at ha) hn
  · exact hown c a hge ha hn

/-- The staging buffers that a device handle may have. -/
structure Stocked (fr : Frame) : Prop where
  buffers : Buffers fr.staging
  positive : ∀ b ∈ fr.staging, 1 ≤ b.len
  apart : ∀ b ∈ fr.staging, b.id ∉ fr.unmapped
  capacity : 2 ≤ fr.stagingCapacity

/-- The world as far as the staging buffers are concerned. In a `clean` run no command of the
first ones transfers a buffer that is kept or that was unmapped. -/
structure Shelf (clean : Prop) (B : World → Prop) (acc : List Accepted) (fr : Frame) (w : World) :
    Prop where
  base : B w
  known : w.Mapped
  mapped : ∀ b ∈ fr.staging, b.id.serial < w.nextBuf
  gone : ∀ b ∈ fr.unmapped, b.serial < w.nextBuf
  released : clean → ∀ b ∈ fr.staging, w.Released acc b.id
  discarded : clean → ∀ b ∈ fr.unmapped, b.purpose = .staging → w.Released acc b

variable {E : Env} {clean clean' : Prop} {B : World → Prop} {acc : List Accepted} {fr : Frame}
  {rest held : List Tag}

theorem stable_shelf (hB : Stable E B) : Stable E (Shelf clean B acc fr) :=
  fun w w' hs hst h => ⟨hB w w' hs hst h.base, stable_mapped E w w' hs hst h.known,
    fun b hb => (h.mapped b hb).trans_le hst.grows.nextBuf,
    fun b hb => (h.gone b hb).trans_le hst.grows.nextBuf,
    fun hclean b hb => stable_released E acc b.id w w' hs hst (h.released hclean b hb),
    fun hclean b hb hp => stable_released E acc b w w' hs hst (h.discarded hclean b hb hp)⟩

theorem Shelf.weaken {w : World} (h : Shelf clean B acc fr w) (hclean : clean' → clean) :
    Shelf clean' B acc fr w :=
  ⟨h.base, h.known, h.mapped, h.gone, fun hc => h.released (hclean hc),
    fun hc => h.discarded (hclean hc)⟩

/-- The world between two operations, after the commands `acc`. -/
def Shelved (clean : Prop) (B : World → Prop) (acc : List Accepted) (fr : Frame) (rest : List Tag) :
    Sys → Prop :=
  Tidy (fun w => Shelf clean B acc fr w ∧ w.accepted = acc) fr rest

theorem Shelved.weaken {s : Sys} (h : Shelved clean B acc fr rest s) (hclean : clean' → clean) :
    Shelved clean' B acc fr rest s :=
  Tidy.mono h fun _ hw => ⟨hw.1.weaken hclean, hw.2⟩

/-! ## Mapping a buffer -/

theorem dmaHostBuffer_spec {P : World → Prop} {Q : ℕ → World → Prop} {purpose : Purpose} {size : ℕ}
    (hP : Patient P)
    (h : ∀ (w : World) contents, w.Sound → P w → Q w.nextBuf (w.map purpose contents)) :
    Triple (Ready P fr held []) (dmaHostBuffer purpose size)
      (Ends (fun b s => ∃ serial, b.id = ⟨purpose, serial⟩ ∧ size ≤ b.len ∧
          Ready (Q serial) fr held [] s)
        fun e s => Ready P fr held [] s ∧ dmaMayBeInFlight e = true) := by
  have hmap : ∀ contents physAddr (s : Sys), Ready P fr held [] s →
      ∃ serial, (⟨⟨purpose, s.world.nextBuf⟩, max size contents.length, physAddr⟩ :
          DmaHostBuffer).id = ⟨purpose, serial⟩ ∧ size ≤ max size contents.length ∧
        Ready (Q serial) fr held [] { s with
          world := s.world.map purpose contents
          mapped := ⟨⟨⟨purpose, s.world.nextBuf⟩, max size contents.length, physAddr⟩, size⟩ ::
            s.mapped } :=
    fun contents _ s hs => ⟨_, rfl, Nat.le_max_left .., hs.tags.later (hs.tags.sound.map _ _) rfl rfl
      rfl fun _ _ hc => hc, h _ contents hs.tags.sound hs.world, hs.frame⟩
  refine .bind (consult_spec hP) fun answer => .read_bind fun serial => ?_
  cases answer with
  | fail e => exact .throw fun s hs => ⟨hs.1, inFlight_toError e⟩
  | buffer contents physAddr => exact fun s ⟨hs, hserial⟩ => hserial ▸ hmap contents physAddr s hs
  | _ => exact fun s ⟨hs, hserial⟩ => hserial ▸ hmap [] 0 s hs

theorem countUnfinished_spec {P : World → Prop} {f : ℕ → ℕ} {F : Error → Sys → Prop} :
    Triple (Ready P fr held []) (countUnfinished f) (Ends (fun _ => Ready P fr held []) F) :=
  .modify fun _ hs => ⟨hs.tags, hs.world, hs.frame⟩

theorem unmap_spec {P : World → Prop} {buffers : List DmaHostBuffer} {F : Error → Sys → Prop} :
    Triple (Ready P fr held []) (unmap buffers)
      (Ends (fun _ => Ready P { fr with unmapped := buffers.map (·.id) ++ fr.unmapped } held []) F) :=
  .modify fun s hs => ⟨hs.tags, hs.world, by rw [← hs.frame]; rfl⟩

/-! ## Taking the buffers -/

/-- The frame with other staging buffers. -/
def Frame.restock (fr : Frame) (staging : List DmaHostBuffer) (unmapped : List BufId) : Frame :=
  { fr with staging := staging, unmapped := unmapped }

/-- Of the buffers taken, the first `count` hold `required` bytes. -/
structure Grown (fr : Frame) (required count : ℕ) : Prop where
  stocked : Stocked fr
  reached : count ≤ fr.staging.length
  enough : ∀ j (b : DmaHostBuffer), j < count → fr.staging[j]? = some b → required ≤ b.len

/-- The `index`th buffer was dropped, if there is one. -/
def Frame.drop (fr : Frame) (index : ℕ) : Frame :=
  fr.restock (fr.staging.eraseIdx index) (fr.staging[index]?.toList.map (·.id) ++ fr.unmapped)

theorem mem_drop_unmapped {index : ℕ} {b : BufId} (hb : b ∈ (fr.drop index).unmapped) :
    (∃ c ∈ fr.staging, c.id = b) ∨ b ∈ fr.unmapped := by
  rcases List.mem_append.1 hb with hb | hb
  · obtain ⟨c, hc, rfl⟩ := List.mem_map.1 hb
    exact .inl ⟨c, List.mem_of_getElem? (by simpa using hc), rfl⟩
  · exact .inr hb

theorem Stocked.drop (h : Stocked fr) (index : ℕ) : Stocked (fr.drop index) := by
  have hsub : (fr.staging.eraseIdx index).Sublist fr.staging := List.eraseIdx_sublist ..
  refine ⟨⟨(hsub.map _).nodup h.buffers.nodup, fun b hb => h.buffers.purpose b (hsub.subset hb),
    hsub.length_le.trans h.buffers.few⟩, fun b hb => h.positive b (hsub.subset hb),
    fun b hb hgone => ?_, h.capacity⟩
  rcases List.mem_append.1 hgone with hgone | hgone
  · obtain ⟨c, hc, heq⟩ := List.mem_map.1 hgone
    have hc : fr.staging[index]? = some c := by simpa using hc
    obtain ⟨hlt, rfl⟩ := List.getElem?_eq_some_iff.1 hc
    have hperm := (List.getElem_cons_eraseIdx_perm hlt).map (·.id)
    have hnodup := hperm.symm.nodup h.buffers.nodup
    exact (List.nodup_cons.1 hnodup).1 (List.mem_map.2 ⟨b, hb, heq.symm⟩)
  · exact h.apart b (hsub.subset hb) hgone

theorem Shelf.drop {w : World} (h : Shelf clean B acc fr w) (index : ℕ) :
    Shelf clean B acc (fr.drop index) w := by
  have hsub : (fr.staging.eraseIdx index).Sublist fr.staging := List.eraseIdx_sublist ..
  refine ⟨h.base, h.known, fun b hb => h.mapped b (hsub.subset hb), fun b hb => ?_,
    fun hclean b hb => h.released hclean b (hsub.subset hb), fun hclean b hb hp => ?_⟩
  · obtain ⟨c, hc, rfl⟩ | hb := mem_drop_unmapped hb
    · exact h.mapped c hc
    · exact h.gone b hb
  · obtain ⟨c, hc, rfl⟩ | hb := mem_drop_unmapped hb
    · exact h.released hclean c hc
    · exact h.discarded hclean b hb hp

/-- A new buffer takes the place of the one dropped. -/
def Frame.insert (fr : Frame) (index : ℕ) (b : DmaHostBuffer) : Frame :=
  fr.restock (fr.staging.insertIdx index b) fr.unmapped

/-- What is known of a buffer just mapped. -/
structure NewBuffer (fr : Frame) (acc : List Accepted) (serial : ℕ) (w : World) : Prop where
  staging : ∀ b ∈ fr.staging, b.id.serial < serial
  unmapped : ∀ b ∈ fr.unmapped, b.serial < serial
  mapped : serial < w.nextBuf
  released : ∀ purpose, w.Released acc ⟨purpose, serial⟩

theorem Shelf.map {w : World} (hB : Stable E B) (h : Shelf clean B acc fr w) (hs : w.Sound)
    (hacc : w.accepted = acc) (purpose : Purpose) (contents : List UInt8) :
    Shelf clean B acc fr (w.map purpose contents) ∧
      NewBuffer fr acc w.nextBuf (w.map purpose contents) := by
  refine ⟨stable_shelf hB w _ hs (.map purpose contents) h, h.mapped, h.gone, Nat.lt_succ_self _,
    fun p c a ha ⟨n, hn, hbuf⟩ => ?_⟩
  have := h.known a (hacc ▸ List.mem_of_getElem? ha) n hn
  rw [hbuf] at this
  exact absurd this (Nat.lt_irrefl _)

theorem Stocked.insert {index serial : ℕ} {b : DmaHostBuffer} {w : World} (h : Stocked fr)
    (hnew : NewBuffer fr acc serial w) (hb : b.id = ⟨.staging, serial⟩) (hlen : 1 ≤ b.len)
    (hindex : index ≤ fr.staging.length) (hfew : fr.staging.length < 2) :
    Stocked (fr.insert index b) := by
  have hserial : b.id.serial = serial := by rw [hb]
  have hmem : ∀ c, c ∈ fr.staging.insertIdx index b ↔ c = b ∨ c ∈ fr.staging :=
    fun c => List.mem_insertIdx hindex
  refine ⟨⟨?_, fun c hc => ?_, ?_⟩, fun c hc => ?_, fun c hc hgone => ?_, h.capacity⟩
  · refine ((List.perm_insertIdx b fr.staging hindex).map (·.id)).symm.nodup ?_
    refine List.nodup_cons.2 ⟨fun hin => ?_, h.buffers.nodup⟩
    obtain ⟨c, hc, heq⟩ := List.mem_map.1 hin
    have hlt := hnew.staging c hc
    simp only at heq
    rw [heq, hserial] at hlt
    exact Nat.lt_irrefl _ hlt
  · obtain rfl | hc := (hmem c).1 hc
    · rw [hb]
    · exact h.buffers.purpose c hc
  · change (fr.staging.insertIdx index b).length ≤ 2
    rw [List.length_insertIdx_of_le_length hindex]
    omega
  · obtain rfl | hc := (hmem c).1 hc
    · exact hlen
    · exact h.positive c hc
  · obtain rfl | hc := (hmem c).1 hc
    · have := hnew.unmapped _ hgone
      omega
    · exact h.apart c hc hgone

theorem Shelf.insert {index serial : ℕ} {b : DmaHostBuffer} {w : World} (h : Shelf clean B acc fr w)
    (hnew : NewBuffer fr acc serial w) (hb : b.id = ⟨.staging, serial⟩)
    (hindex : index ≤ fr.staging.length) : Shelf clean B acc (fr.insert index b) w := by
  have hmem : ∀ c, c ∈ fr.staging.insertIdx index b ↔ c = b ∨ c ∈ fr.staging :=
    fun c => List.mem_insertIdx hindex
  refine ⟨h.base, h.known, fun c hc => ?_, h.gone, fun hclean c hc => ?_, h.discarded⟩
  · obtain rfl | hc := (hmem c).1 hc
    · rw [hb]
      exact hnew.mapped
    · exact h.mapped c hc
  · obtain rfl | hc := (hmem c).1 hc
    · rw [hb]
      exact hnew.released _
    · exact h.released hclean c hc

theorem growStaging_spec {required half : ℕ} (hB : Stable E B) (hpos : 1 ≤ required)
    (hhalf : required ≤ half) (n : ℕ) :
    ∀ index fr, index + n ≤ 2 → Grown fr required index →
      Triple (Tidy (fun w => Shelf clean B acc fr w ∧ w.accepted = acc) { fr with staging := [] } rest)
        (growStaging required half n index fr.staging)
        (Ends (fun out s => ∃ unmapped, Grown (fr.restock out unmapped) required (index + n) ∧
            Tidy (fun w => Shelf clean B acc (fr.restock out unmapped) w ∧ w.accepted = acc)
              (fr.restock [] unmapped) rest s)
          fun _ s => ∃ staging unmapped, Stocked (fr.restock staging unmapped) ∧
            Shelved clean B acc (fr.restock staging unmapped) rest s) := by
  induction n with
  | zero => exact fun index fr _ hgrown => .pure fun s hs => ⟨fr.unmapped, hgrown, hs⟩
  | succ n ih =>
    intro index fr hindex hgrown
    refine .ite (fun henough => ?_) fun hlack => ?_
    · have hnext : Grown fr required (index + 1) := by
        obtain ⟨b, hb, hlen⟩ := henough
        have hlt := (List.getElem?_eq_some_iff.1 hb).1
        refine ⟨hgrown.stocked, hlt, fun j c hj hc => ?_⟩
        obtain rfl | hj := Nat.eq_or_lt_of_le (Nat.le_of_lt_succ hj)
        · obtain rfl : b = c := Option.some.inj (hb.symm.trans hc)
          exact hlen
        · exact hgrown.enough j c hj hc
      have := ih (index + 1) fr (by omega) hnext
      rwa [show index + 1 + n = index + (n + 1) by omega] at this
    · have hstable : Stable E (Shelf clean B acc (fr.drop index)) := stable_shelf hB
      have hstocked := hgrown.stocked.drop index
      have hlen : (fr.drop index).staging.length < 2 ∧ index ≤ (fr.drop index).staging.length := by
        have hreached := hgrown.reached
        have hfew := hgrown.stocked.buffers.few
        change (fr.staging.eraseIdx index).length < 2 ∧ index ≤ (fr.staging.eraseIdx index).length
        rw [List.length_eraseIdx]
        split <;> omega
      refine .bind (unmap_spec.pre fun _ h => h) fun _ => ?_
      refine .attempt_bind (R := fun (b : DmaHostBuffer) s => ∃ serial, b.id = ⟨.staging, serial⟩ ∧
          min (PowersOfTwo.nextPowerOfTwo required) half ≤ b.len ∧
          Tidy (fun w => (Shelf clean B acc (fr.drop index) w ∧ w.accepted = acc) ∧
            NewBuffer (fr.drop index) acc serial w) { fr.drop index with staging := [] } rest s)
        (E := fun _ => Tidy (fun w => Shelf clean B acc (fr.drop index) w ∧ w.accepted = acc)
          { fr.drop index with staging := [] } rest)
        ((dmaHostBuffer_spec (hstable.patient.and (.accepted acc)) fun w contents hs hw => ?_).conseq
          (fun s hs => hs.mono fun w hw => ⟨hw.1.drop index, hw.2⟩)
          (fun _ _ h => h) (fun _ _ h => h.1) fun _ h => h) (fun b => ?_) fun e => ?_
      · obtain ⟨hshelf, hnew⟩ := hw.1.map hB hs hw.2 .staging contents
        exact ⟨⟨hshelf, hw.2⟩, hnew⟩
      · refine .exists_pre fun serial => .intro (fun _ h => h.1) fun hb =>
          .intro (fun _ h => h.2.1) fun hsize => ?_
        have hrequired : required ≤ b.len := by
          have := PowersOfTwo.le_nextPowerOfTwo required
          omega
        refine .intro (p := Grown ((fr.drop index).insert index b) required (index + 1))
          (fun s hs => ?_) fun hgrown' => ?_
        · refine ⟨hstocked.insert hs.2.2.world.2 hb (by omega) hlen.2 hlen.1, ?_,
            fun j c hj hc => ?_⟩
          · change index + 1 ≤ ((fr.drop index).staging.insertIdx index b).length
            rw [List.length_insertIdx_of_le_length hlen.2]
            omega
          · change ((fr.drop index).staging.insertIdx index b)[j]? = some c at hc
            obtain rfl | hj := Nat.eq_or_lt_of_le (Nat.le_of_lt_succ hj)
            · rw [List.getElem?_insertIdx_self, if_pos hlen.2] at hc
              obtain rfl := Option.some.inj hc
              exact hrequired
            · rw [List.getElem?_insertIdx_of_lt hj] at hc
              change (fr.staging.eraseIdx index)[j]? = some c at hc
              rw [List.getElem?_eraseIdx_of_lt hj] at hc
              exact hgrown.enough j c hj hc
        · have := ih (index + 1) ((fr.drop index).insert index b) (by omega) hgrown'
          rw [show index + 1 + n = index + (n + 1) by omega] at this
          exact this.pre fun s hs => hs.2.2.mono fun w hw =>
            ⟨hw.1.1.insert hw.2 hb hlen.2, hw.1.2⟩
      · refine .modify_bind (R := Shelved clean B acc (fr.drop index) rest) (fun s hs =>
          ⟨hs.tags, hs.world, ?_⟩) (.throw fun s hs => ⟨_, _, hstocked, hs⟩)
        have hframe : { s.frame with staging := fr.staging.eraseIdx index } = fr.drop index := by
          rw [hs.frame]
          rfl
        exact hframe

theorem chunkCount_le_one {total chunk : ℕ} (h : total ≤ chunk) (hchunk : 1 ≤ chunk) :
    chunkCount total chunk ≤ 1 := by
  have : (total + chunk - 1) / chunk < 2 := Nat.div_lt_of_lt_mul (by omega)
  exact Nat.le_of_lt_succ this

theorem takeStaging_spec {total : ℕ} (hB : Stable E B) (hstocked : Stocked fr) (htotal : 1 ≤ total) :
    Triple (Shelved clean B acc fr rest) (takeStaging total)
      (Ends (fun out s => ∃ unmapped, Stocked (fr.restock out unmapped) ∧ 0 < out.length ∧
          (chunkCount total (stagingChunk out) ≤ 1 ∨ 2 ≤ out.length) ∧
          Tidy (fun w => Shelf clean B acc (fr.restock out unmapped) w ∧ w.accepted = acc)
            (fr.restock [] unmapped) rest s)
        fun _ s => ∃ staging unmapped, Stocked (fr.restock staging unmapped) ∧
          Shelved clean B acc (fr.restock staging unmapped) rest s) := by
  refine .read_bind fun dev => .intro (p := dev.staging = fr.staging ∧
    dev.stagingCapacity = fr.stagingCapacity) (fun s hs => ?_) fun hdev => ?_
  · obtain ⟨hs, rfl⟩ := hs
    exact ⟨congrArg Frame.staging hs.frame, congrArg Frame.stagingCapacity hs.frame⟩
  rw [hdev.1, hdev.2]
  have hcap := hstocked.capacity
  refine .modify_bind (R := Tidy (fun w => Shelf clean B acc fr w ∧ w.accepted = acc)
    { fr with staging := [] } rest) (fun s hs => ?_) ?_
  · refine ⟨hs.1.tags, hs.1.world, ?_⟩
    have hframe : { s.frame with staging := [] } = { fr with staging := [] } := by rw [hs.1.frame]
    exact hframe
  have hneeded : 0 + (if fr.stagingCapacity / 2 < total then 2 else 1) ≤ 2 := by split <;> omega
  have hrequired : 1 ≤ min total (fr.stagingCapacity / 2) := by omega
  refine .bind countUnfinished_spec fun _ => .bind (growStaging_spec hB hrequired
    (Nat.min_le_right ..) _ 0 fr hneeded
    ⟨hstocked, Nat.zero_le _, fun j b hj => absurd hj (Nat.not_lt_zero j)⟩) fun out s hs => ?_
  obtain ⟨unmapped, hgrown, hs⟩ := hs
  have hreached : 0 + (if fr.stagingCapacity / 2 < total then 2 else 1) ≤ out.length :=
    hgrown.reached
  refine ⟨unmapped, hgrown.stocked, by split at hreached <;> omega, ?_,
    hs.tags, hs.world, hs.frame⟩
  by_cases hlarge : fr.stagingCapacity / 2 < total
  · rw [if_pos hlarge] at hreached
    exact .inr (by omega)
  · rw [if_neg hlarge] at hreached
    by_cases htwo : 2 ≤ out.length
    · exact .inr htwo
    obtain ⟨b, rfl⟩ : ∃ b, out = [b] := List.length_eq_one_iff.1 (by omega)
    have hlen : min total (fr.stagingCapacity / 2) ≤ b.len :=
      hgrown.enough 0 b (by split <;> omega) rfl
    have hchunk : stagingChunk [b] = max b.len 1 := rfl
    exact .inl (chunkCount_le_one (by omega) (by omega))

/-! ## Putting the buffers back -/

/-- The transfer kept its buffers, its commands all popped if the run is clean. -/
theorem Shelf.keep {w : World} {own : List Accepted} (h : Shelf clean B acc fr w)
    (forgotten : List Tag) (hclean : clean' → clean)
    (hown : clean' → ∀ c a, acc.length ≤ c → (acc ++ own)[c]? = some a → w.popped c = true) :
    Shelf clean' B (acc ++ own) { fr with cut := forgotten ++ fr.cut } w :=
  ⟨h.base, h.known, h.mapped, h.gone,
    fun hc b hb => (h.released (hclean hc) b hb).append fun c a hlo ha _ => hown hc c a hlo ha,
    fun hc b hb hp => (h.discarded (hclean hc) b hb hp).append
      fun c a hlo ha _ => hown hc c a hlo ha⟩

/-- The transfer leaked its buffers. -/
theorem Shelf.leak {w : World} {own : List Accepted} (h : Shelf clean B acc fr w)
    (hstocked : Stocked fr) (forgotten : List Tag) (hclean : clean' → clean)
    (hown : ∀ a ∈ own, ∀ n ∈ a.cmd.nodes, n.hostVirtAddr.buf ∈ fr.staging.map (·.id)) :
    Shelf clean' B (acc ++ own) { fr with staging := [], cut := forgotten ++ fr.cut } w := by
  refine ⟨h.base, h.known, by simp, h.gone, by simp, fun hc b hb hp =>
    (h.discarded (hclean hc) b hb hp).append fun c a hlo ha ⟨n, hn, hbuf⟩ => ?_⟩
  rw [List.getElem?_append_right hlo] at ha
  obtain ⟨b', hb', heq⟩ := List.mem_map.1 (hown a (List.mem_of_getElem? ha) n hn)
  have hgone : b'.id ∈ fr.unmapped := by rwa [show b'.id = b from heq.trans hbuf]
  exact absurd hgone (hstocked.apart b' hb')

theorem abandonPending_spec {P : World → Prop} {F : Error → Sys → Prop} :
    Triple (Ready P fr (fr.pending ++ held) []) abandonPending
      (Ends (fun uncollected s => uncollected = !fr.pending.isEmpty ∧
        Ready P { fr with pending := [] } held [] s) F) :=
  getPending_bind (.bind abandonAll_spec fun _ => .pure fun _ h => ⟨rfl, h⟩)

/-- With no command pending, none is abandoned. -/
theorem abandonPending_none {P : World → Prop} {Q : Sys → Prop} {F : Error → Sys → Prop}
    (hp : fr.pending = []) (hQ : ∀ s tags, Q s → Q { s with pending := tags }) :
    Triple (fun s => Ready P fr held [] s ∧ Q s) abandonPending
      (Ends (fun uncollected s => uncollected = false ∧ Ready P fr held [] s ∧ Q s) F) := by
  intro s ⟨hs, hq⟩
  have hnone : s.pending = [] := (congrArg Frame.pending hs.frame).trans hp
  have hrun : abandonPending s = (.ok false, { s with pending := [] }) := by
    simp only [abandonPending, abandonAll, getPending, Prog.read, setPending, Prog.modify, bind,
      Prog.bind, hnone, abandonEach]
    rfl
  rw [hrun]
  refine ⟨rfl, ⟨hs.tags, hs.world, ?_⟩, hQ s [] hq⟩
  rw [← hs.frame, ← hnone]

theorem restoreStaging_ok {own : List Accepted} {F : Error → Sys → Prop} (hp : fr.pending = []) :
    Triple (Transferred (Shelf clean B acc fr) { fr with staging := [] } rest acc own)
      (restoreStaging fr.staging (.ok ()))
      (Ends (fun _ => Tidy (fun w => (Shelf clean B (acc ++ own) fr w ∧ w.accepted = acc ++ own) ∧
        w.CompletedFrom acc.length (acc ++ own).length) fr rest) F) := by
  refine .bind countUnfinished_spec fun _ => .bind abandonPending_spec fun uncollected s hs => ?_
  obtain ⟨-, hs⟩ := hs
  have hframe : { s.frame with staging := fr.staging, unmapped := s.dev.staging.map (·.id) ++ s.unmapped }
      = fr := by
    have hstaging : s.dev.staging = [] := congrArg Frame.staging hs.frame
    have hunmapped : s.unmapped = fr.unmapped := congrArg Frame.unmapped hs.frame
    rw [hs.frame, hstaging, hunmapped, List.map_nil, List.nil_append]
    cases fr
    simp_all
  refine ⟨?_, ⟨⟨?_, hs.world.2.1⟩, hs.world.2.2⟩, hframe⟩
  · rw [hp]
    exact hs.tags
  · exact hs.world.1.keep [] id fun _ c a hc ha =>
      (hs.world.2.2 c hc (List.getElem?_eq_some_iff.1 ha).1).1

/-- The run was exposed: a command was refused while another of its chunk, the last one, was in
flight. -/
def Sys.Exposed (s : Sys) : Prop := EtSoc.Exposed s.world.accepted s.log

instance (s : Sys) : Decidable s.Exposed :=
  inferInstanceAs (Decidable (EtSoc.Exposed s.world.accepted s.log))

/-- No tag was forgotten, or none of those that were matters. -/
def Sys.Clean (s : Sys) : Prop := s.cut ≠ [] → ¬s.Exposed

theorem Sys.Clean.of_forgotten {s : Sys} {forgotten cut : List Tag} (h : s.Clean)
    (hcut : s.cut = forgotten ++ cut) : forgotten ≠ [] → ¬s.Exposed :=
  fun hne => h (by simp [hcut, hne])

/-- After a refusal, an unpopped command of the transfer is one that the run was exposed to. -/
theorem Refuses.exposed {s : Sys} {lo c : ℕ} {a : Accepted} {fresh : List Tag}
    (h : Refuses s.world.accepted lo s) (htags : TagInv held fresh s.books)
    (ha : s.world.accepted[c]? = some a) (hlo : lo ≤ c) (hheld : a.cmd.tagId ∈ held)
    (hbuf : ∀ n ∈ a.cmd.nodes, n.hostVirtAddr.buf.purpose ≠ .arguments)
    (hpopped : s.world.popped c = false) : s.Exposed := by
  obtain ⟨c₀, hc₀, hbefore, hafter⟩ := h
  have hlt : c₀ < c := by
    by_contra hle
    simp [hbefore c hlo (Nat.le_of_not_lt hle)] at hpopped
  obtain ⟨c', hwait, hlatest, -⟩ := htags.awaited _ hheld
  obtain rfl := hlatest.unique (htags.unpopped c a ha hpopped).2
  refine Exposes.exposed ⟨c₀, hc₀, fun d hd hlt => ?_, c', ?_, hlt, fun hpop => ?_, a, ha, hbuf⟩
  · obtain ⟨t, hpushed⟩ := mem_pushes.1 hd
    obtain ⟨a', ha', -⟩ := htags.pushed t d hpushed
    exact ⟨a', ha', hafter d a' hlt ha'⟩
  · exact mem_pushes.2 ⟨_, mem_of_waiting hwait⟩
  · obtain ⟨rsp, hrsp⟩ := mem_pops.1 hpop
    have := (htags.popped c' rsp hrsp).1
    rw [show s.books.world.popped c' = false from hpopped] at this
    simp at this

theorem restoreStaging_err {carries : Accepted → Prop} {e : Error} {F : Error → Sys → Prop}
    (hstocked : Stocked fr) (hp : fr.pending = [])
    (hcarries : ∀ a, carries a → ∀ n ∈ a.cmd.nodes,
      n.hostVirtAddr.buf ∈ fr.staging.map (·.id)) :
    Triple (Failed (Shelf clean B acc fr) { fr with staging := [] } rest acc carries e)
      (restoreStaging fr.staging (.error e))
      (Ends (fun _ s => ∃ staging own forgotten, (∀ a ∈ own, carries a) ∧
        Stocked (fr.restock staging fr.unmapped) ∧
        Shelved (clean ∧ (forgotten ≠ [] → ¬s.Exposed)) B (acc ++ own)
          { fr.restock staging fr.unmapped with cut := forgotten ++ fr.cut } rest s) F) := by
  refine .exists_pre fun own => .exists_pre fun pending => .exists_pre fun forgotten =>
    .intro (fun _ h => h.1) fun hown => ?_
  let fr' : Frame := { fr with staging := [], pending := [], cut := forgotten ++ fr.cut }
  have hleak : ∀ s, Ready (fun w => Shelf clean B acc fr w ∧ w.accepted = acc ++ own ∧
      Accounted (acc ++ own) acc.length (pending ++ forgotten) e w) fr'
      (fr'.cut ++ rest) [] s → Shelved (clean ∧ (forgotten ≠ [] → ¬s.Exposed)) B (acc ++ own)
        { fr.restock [] fr.unmapped with cut := forgotten ++ fr.cut } rest s := by
    intro s hs
    refine ⟨?_, ⟨hs.world.1.leak hstocked forgotten And.left fun a ha => hcarries a (hown a ha),
      hs.world.2.1⟩, ?_⟩
    · change TagInv (fr.pending ++ _) [] _
      rw [hp]
      exact hs.tags
    · rw [hs.frame]
      cases fr
      simp_all [fr', Frame.restock]
  have hempty : Stocked (fr.restock [] fr.unmapped) :=
    ⟨⟨by simp [Frame.restock], by simp [Frame.restock], by simp [Frame.restock]⟩,
      by simp [Frame.restock], by simp [Frame.restock], hstocked.capacity⟩
  by_cases hnone : pending = []
  · subst hnone
    -- The buffers may be kept, so that the refusal matters.
    let Q : Sys → Prop := fun s => dmaMayBeInFlight e = false → forgotten ≠ [] →
      Refuses (acc ++ own) acc.length s
    refine .bind (R := fun _ s => Ready (fun w => Shelf clean B acc fr w ∧
        w.accepted = acc ++ own ∧ Accounted (acc ++ own) acc.length ([] ++ forgotten) e w) fr'
        (fr'.cut ++ rest) [] s ∧ Q s)
      (.modify fun s hs => ⟨⟨hs.2.2.tags, hs.2.2.world, hs.2.2.frame⟩, fun he => hs.2.1 he rfl⟩)
      fun _ => .bind (abandonPending_none rfl fun _ _ h => h) fun uncollected =>
        .and_pre fun huncollected => .ite (fun _ => .pure fun s hs => ?_) fun hkeep s hs => ?_
    · exact ⟨[], own, forgotten, hown, hempty, hleak s hs.1⟩
    · obtain ⟨hs, hrefuses⟩ := hs
      have hfly : dmaMayBeInFlight e = false := by simpa [huncollected, mustLeak] using hkeep
      have hframe : { s.frame with
          staging := fr.staging, unmapped := s.dev.staging.map (·.id) ++ s.unmapped } =
          { fr with cut := forgotten ++ fr.cut } := by
        have hstaging : s.dev.staging = [] := congrArg Frame.staging hs.frame
        have hunmapped : s.unmapped = fr.unmapped := congrArg Frame.unmapped hs.frame
        rw [hs.frame, hstaging, hunmapped, List.map_nil, List.nil_append]
        cases fr
        simp_all [fr']
      refine ⟨fr.staging, own, forgotten, hown, hstocked, ?_, ⟨?_, hs.world.2.1⟩, hframe⟩
      · change TagInv (fr.pending ++ _) [] _
        rw [hp]
        exact hs.tags
      · refine hs.world.1.keep forgotten And.left fun hclean c a hc ha => ?_
        obtain hpop | htag | he := hs.world.2.2 c a hc ha
        · exact hpop
        · have htag : a.cmd.tagId ∈ forgotten := htag
          have hacc : s.world.accepted = acc ++ own := hs.world.2.1
          have hmem : a ∈ own := by
            rw [List.getElem?_append_right hc] at ha
            exact List.mem_of_getElem? ha
          by_contra hpop
          have hne : forgotten ≠ [] := List.ne_nil_of_mem htag
          refine hclean.2 hne (Refuses.exposed (hacc ▸ hrefuses hfly hne) hs.tags
            (by rw [hacc]; exact ha) hc (by simp [fr', htag]) (fun n hn => ?_) (by simpa using hpop))
          obtain ⟨b, hb, heq⟩ := List.mem_map.1 (hcarries a (hown a hmem) n hn)
          simp [← heq, hstocked.buffers.purpose b hb]
        · simp [hfly] at he
  · refine .bind (countUnfinished_spec.pre fun _ h => h.2.2) fun _ => .bind abandonPending_spec
      fun uncollected => .and_pre fun huncollected => .ite (fun _ => .pure fun s hs => ?_)
        fun hkeep => ?_
    · exact ⟨[], own, forgotten, hown, hempty, hleak s hs⟩
    · refine absurd ?_ hkeep
      cases pending with
      | nil => exact absurd rfl hnone
      | cons tag tags => simp [mustLeak, huncollected]

end EtSoc
