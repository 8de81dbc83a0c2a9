import EtSoc.Verification.Kernel.CacheLines
import EtSoc.Verification.Kernel.Channel

/-! # The areas of the channel

Every line of the buffer and of the results is written by one Minion only. -/

namespace EtSoc.Channel

open CacheOps WriteBackCache

/-- A launch of two Minions on areas that the host has allocated for it, apart from each other and
below `2 ^ 48`: a cache operation names its lines by bits 47 to 6 of an address. -/
structure Placed (args : Args) (hart : Role → UInt32) : Prop where
  ping : args.isPing (hart .ping)
  pong : args.isPong (hart .pong)
  valid : ∀ r, args.validArguments (hart r)
  writeback : (args.destination args.writebackLevel).isSome
  invalidate : (args.destination args.invalidateLevel).isSome
  buffer : args.buffer.toNat + bufferBytes args.messageBytes.toNat ≤ 2 ^ 48
  results : args.results.toNat + resultsBytes args.iterations.toNat ≤ 2 ^ 48
  apart : args.results.toNat + resultsBytes args.iterations.toNat ≤ args.buffer.toNat ∨
    args.buffer.toNat + bufferBytes args.messageBytes.toNat ≤ args.results.toNat

variable {args : Args} {hart : Role → UInt32}

/-! ## Harts -/

/-- A Minion has one primary hart. -/
theorem Args.isMinion.eq {shire minion hart hart' : UInt32} (h : isMinion shire minion hart)
    (h' : isMinion shire minion hart') : hart = hart' := by
  obtain ⟨heven, hshire, hminion⟩ := h
  obtain ⟨heven', hshire', hminion'⟩ := h'
  have hparts (x : UInt32) : (x &&& 1).toNat = x.toNat % 2 ∧ (x >>> 6).toNat = x.toNat / 64 ∧
      ((x &&& 63) >>> 1).toNat = x.toNat % 64 / 2 := by
    have h63 := Nat.and_two_pow_sub_one_eq_mod x.toNat 6
    have h1 := Nat.and_two_pow_sub_one_eq_mod x.toNat 1
    simp_all [UInt32.toNat_and, UInt32.toNat_shiftRight, Nat.shiftRight_eq_div_pow]
  obtain ⟨h0, h6, h1⟩ := hparts hart
  obtain ⟨h0', h6', h1'⟩ := hparts hart'
  rw [heven] at h0
  rw [heven'] at h0'
  rw [hshire] at h6
  rw [hshire'] at h6'
  rw [hminion] at h1
  rw [hminion'] at h1'
  exact UInt32.toNat.inj (by omega)

theorem Placed.ne (h : Placed args hart) : hart .ping ≠ hart .pong := by
  intro heq
  exact (h.valid .ping).1 ⟨h.ping, heq ▸ h.pong⟩

theorem Placed.role (h : Placed args hart) (r : Role) : args.role (hart r) = some r := by
  cases r with
  | ping => rw [Args.role, if_pos h.ping]
  | pong =>
    rw [Args.role, if_neg fun hping => (h.valid .pong).1 ⟨hping, h.pong⟩, if_pos h.pong]

theorem Placed.eq_hart (h : Placed args hart) {x : UInt32} {r : Role} (hx : args.role x = some r) :
    x = hart r := by
  rw [Args.role] at hx
  split at hx
  · cases hx
    exact Args.isMinion.eq (by assumption) h.ping
  · split at hx
    · cases hx
      exact Args.isMinion.eq (by assumption) h.pong
    · cases hx

theorem Placed.hart_inj (h : Placed args hart) {r r' : Role} (heq : hart r = hart r') : r = r' := by
  have hrole := h.role r
  rw [heq, h.role r'] at hrole
  exact (Option.some.inj hrole).symm

/-! ## The caches that the two share -/

theorem isPath_path (x : UInt32) : hierarchy.IsPath (path x) := Hierarchy.isPath_self _

theorem path_eq (x : UInt32) : path x = [.l1 (x >>> 1), .l2 (x >>> 6), .l3] := by
  have hshire : x >>> 1 >>> 5 = x >>> 6 := by
    refine UInt32.toNat.inj ?_
    simp only [UInt32.toNat_shiftRight]
    exact (Nat.shiftRight_add x.toNat 1 5).symm
  rw [← hshire]
  rfl

/-- The number of the caches of a Minion that the other one does not share. -/
def Args.depth (args : Args) : ℕ := if args.pingShire = args.pongShire then 1 else 2

def common (args : Args) (hart : Role → UInt32) : List Cache :=
  (path (hart .ping)).drop args.depth

theorem Placed.common_eq (h : Placed args hart) (ρ : Role) :
    common args hart = (path (hart ρ)).drop args.depth := by
  obtain ⟨-, hping, -⟩ := h.ping
  obtain ⟨-, hpong, -⟩ := h.pong
  rw [common, Args.depth]
  split
  · cases ρ <;> simp_all [path_eq]
  · cases ρ <;> simp [path_eq]

theorem Placed.take_append_common (h : Placed args hart) (ρ : Role) :
    (path (hart ρ)).take args.depth ++ common args hart = path (hart ρ) := by
  rw [h.common_eq ρ, List.take_append_drop]

theorem isPath_common (args : Args) (hart : Role → UInt32) :
    hierarchy.IsPath (common args hart) := by
  have hpath := isPath_path (hart .ping)
  rw [← List.take_append_drop args.depth (path (hart .ping))] at hpath
  exact hpath.of_append

/-- A destination is not before the caches that the two share. -/
theorem depth_le {level : UInt32} (h : (args.destination level).isSome) :
    args.depth ≤ ((args.destination level).getD .mem).toU64.toNat := by
  revert h
  rw [Args.destination, Args.depth]
  split
  · rename_i hshire
    rw [if_pos hshire.2]
    exact fun _ => Nat.le_refl 1
  · split
    · split <;> exact fun _ => by decide
    · split
      · split <;> exact fun _ => by decide
      · simp

/-! ## The numbers of the layout -/

theorem linesOf_ofNat {csr : UInt16} {dst : CacheDest} {hw : UInt64 → UInt64 → CsrWrite}
    (hhw : ∀ line hwCount, hw line hwCount = ⟨csr, csrEnc dst line hwCount, 64⟩) {addr len : ℕ}
    (haddr : 64 ∣ addr) (hfits : addr + len ≤ 2 ^ 48) :
    linesOf (if lineCount (.ofNat addr) (.ofNat len) = 0 then []
      else batches hw (lineCount (.ofNat addr) (.ofNat len)).toNat (.ofNat addr &&& ~~~63)
        (lineCount (.ofNat addr) (.ofNat len))) =
      List.range' (addr / 64) ((len + 63) / 64) := by
  have hsize : UInt64.size = 2 ^ 64 := rfl
  have haddrNat : (UInt64.ofNat addr).toNat = addr := UInt64.toNat_ofNat_of_lt' (by omega)
  have hlenNat : (UInt64.ofNat len).toNat = len := UInt64.toNat_ofNat_of_lt' (by omega)
  have hlines := linesOf_batches hhw (show 64 ∣ (UInt64.ofNat addr).toNat by rwa [haddrNat])
    (show _ + (UInt64.ofNat len).toNat ≤ 2 ^ 48 by rwa [haddrNat, hlenNat])
  rwa [haddrNat, hlenNat] at hlines

theorem Endpoint.flushes_eq (dst : CacheDest) {addr len : ℕ} (haddr : 64 ∣ addr)
    (hfits : addr + len ≤ 2 ^ 48) :
    flushes dst addr len = List.range' (addr / 64) ((len + 63) / 64) := by
  rw [flushes]
  exact linesOf_ofNat (fun _ _ => rfl) haddr hfits

theorem Endpoint.evicts_eq (dst : CacheDest) {addr len : ℕ} (haddr : 64 ∣ addr)
    (hfits : addr + len ≤ 2 ^ 48) :
    evicts dst addr len = List.range' (addr / 64) ((len + 63) / 64) := by
  rw [evicts]
  exact linesOf_ofNat (fun _ _ => rfl) haddr hfits

/-- The lines that the areas start at, in numbers. -/
structure Numbers (args : Args) (b r w i : ℕ) : Prop where
  buffer : args.buffer.toNat = 64 * b
  results : args.results.toNat = 64 * r
  words : args.messageBytes.toNat = 8 * w
  iterations : args.iterations.toNat = i
  buffer_lt : 64 * (b + 2 + 2 * ((w + 7) / 8)) ≤ 2 ^ 48
  results_lt : 64 * (r + 2) + 16 * i ≤ 2 ^ 48
  iterations_lt : i < 2 ^ 20
  apart : 64 * (r + 2) + 16 * i ≤ 64 * b ∨ b + 2 + 2 * ((w + 7) / 8) ≤ r

theorem Placed.numbers (h : Placed args hart) : ∃ b r w i, Numbers args b r w i := by
  obtain ⟨-, -, -, ⟨w, hw⟩, hi, ⟨b, hb⟩, ⟨r, hr⟩⟩ := h.valid .ping
  have hbuffer := h.buffer
  have hresults := h.results
  have hapart := h.apart
  rw [UInt32.lt_iff_toNat_lt, show maxIterations.toNat = 2 ^ 20 by decide] at hi
  simp only [bufferBytes, replyDataOffset, forwardDataOffset, nextMultipleOf, resultsBytes,
    samplesOffset, sampleWords, lineBytes, wordBytes] at *
  exact ⟨b, r, w, _, hb, hr, hw, rfl, by omega, by omega, hi, by omega⟩

namespace Numbers

variable {b r w i : ℕ}

theorem flag (h : Numbers args b r w i) (ρ : Role) :
    args.flag ρ = 64 * (b + match ρ with | .ping => 0 | .pong => 1) := by
  cases ρ <;> simp only [Args.flag, h.buffer, forwardFlagOffset, replyFlagOffset, lineBytes] <;>
    omega

theorem data (h : Numbers args b r w i) (ρ : Role) :
    args.data ρ = 64 * (b + 2 + match ρ with | .ping => 0 | .pong => (w + 7) / 8) := by
  cases ρ <;> simp only [Args.data, h.buffer, h.words, forwardDataOffset, replyDataOffset,
    nextMultipleOf, lineBytes] <;> omega

theorem header (h : Numbers args b r w i) (ρ : Role) :
    args.header ρ = 64 * (r + match ρ with | .ping => 0 | .pong => 1) := by
  cases ρ <;> simp only [Args.header, h.results, pingHeaderOffset, pongHeaderOffset, lineBytes] <;>
    omega

theorem samples (h : Numbers args b r w i) (ρ : Role) :
    (args.endpoint ρ).samples = 64 * (r + 2) := by
  simp only [Args.endpoint, h.results, samplesOffset, lineBytes]
  omega

theorem payloadWords (h : Numbers args b r w i) (ρ : Role) :
    (args.endpoint ρ).payloadWords = w := by
  simp only [Args.endpoint, h.words, wordBytes]
  omega

theorem payloadBytes (h : Numbers args b r w i) (ρ : Role) :
    (args.endpoint ρ).payloadBytes = 8 * w := by
  rw [Endpoint.payloadBytes, h.payloadWords, wordBytes, Nat.mul_comm]

theorem dataFlushes (h : Numbers args b r w i) (ρ : Role) (dst : CacheDest) :
    (args.endpoint ρ).dataFlushes dst = List.range' (args.data ρ / lineBytes) ((w + 7) / 8) := by
  have hlt := h.buffer_lt
  have hdata := h.data ρ
  rw [Endpoint.dataFlushes, h.payloadBytes]
  change Endpoint.flushes dst (args.data ρ) _ = _
  rw [Endpoint.flushes_eq dst (by omega) (by cases ρ <;> dsimp only at hdata <;> omega)]
  congr 1
  omega

theorem dataEvicts (h : Numbers args b r w i) (ρ : Role) :
    (args.endpoint ρ).dataEvicts =
      List.range' (args.data ρ.other / lineBytes) ((w + 7) / 8) := by
  have hlt := h.buffer_lt
  have hdata := h.data ρ.other
  rw [Endpoint.dataEvicts, h.payloadBytes]
  change Endpoint.evicts _ (args.data ρ.other) _ = _
  rw [Endpoint.evicts_eq _ (by omega) (by cases ρ <;> simp only [Role.other] at hdata ⊢ <;> omega)]
  congr 1
  omega

theorem flagFlush (h : Numbers args b r w i) (ρ : Role) (dst : CacheDest) :
    (args.endpoint ρ).flagFlush dst = args.flag ρ / lineBytes := by
  have hlt := h.buffer_lt
  have hflag := h.flag ρ
  rw [Endpoint.flagFlush]
  change (Endpoint.flushes dst (args.flag ρ) lineBytes).headD 0 = _
  rw [Endpoint.flushes_eq dst (by omega)
    (by cases ρ <;> simp only [lineBytes] at hflag ⊢ <;> omega)]
  rfl

theorem flagEvict (h : Numbers args b r w i) (ρ : Role) :
    (args.endpoint ρ).flagEvict = args.flag ρ.other / lineBytes := by
  have hlt := h.buffer_lt
  have hflag := h.flag ρ.other
  rw [Endpoint.flagEvict]
  change (Endpoint.evicts _ (args.flag ρ.other) lineBytes).headD 0 = _
  rw [Endpoint.evicts_eq _ (by omega)
    (by cases ρ <;> simp only [lineBytes, Role.other] at hflag ⊢ <;> omega)]
  rfl

theorem headerFlushes (h : Numbers args b r w i) (ρ : Role) :
    (args.endpoint ρ).headerFlushes = [args.header ρ / lineBytes] := by
  have hlt := h.results_lt
  have hheader := h.header ρ
  rw [Endpoint.headerFlushes]
  change Endpoint.flushes .mem (args.header ρ) lineBytes = _
  rw [Endpoint.flushes_eq .mem (by omega)
    (by cases ρ <;> simp only [lineBytes] at hheader ⊢ <;> omega)]
  rfl

theorem sampleFlushes (h : Numbers args b r w i) (ρ : Role) :
    (args.endpoint ρ).sampleFlushes = match ρ with
      | .ping => List.range' (r + 2) ((i + 3) / 4)
      | .pong => [] := by
  cases ρ with
  | pong => rfl
  | ping =>
    have hlt := h.results_lt
    have hbytes : (args.endpoint .ping).sampleBytes = 16 * i := by
      simp only [Endpoint.sampleBytes, resultsBytes, samplesOffset, sampleWords, lineBytes,
        Args.endpoint, h.iterations]
      omega
    rw [Endpoint.sampleFlushes, show (args.endpoint .ping).role = .ping from rfl]
    dsimp only
    rw [hbytes, h.samples, Endpoint.flushes_eq .mem (by omega) (by omega),
      Nat.mul_div_cancel_left _ (by decide), show (16 * i + 63) / 64 = (i + 3) / 4 by omega]

theorem getD_dataFlushes (h : Numbers args b r w i) (ρ : Role) (dst : CacheDest) {number : ℕ}
    (hlt : number < (w + 7) / 8) :
    ((args.endpoint ρ).dataFlushes dst).getD number 0 = args.data ρ / lineBytes + number := by
  rw [h.dataFlushes, List.getD_eq_getElem?_getD, List.getElem?_range' hlt, Option.getD_some,
    Nat.one_mul]

theorem getD_dataEvicts (h : Numbers args b r w i) (ρ : Role) {number : ℕ}
    (hlt : number < (w + 7) / 8) :
    (args.endpoint ρ).dataEvicts.getD number 0 = args.data ρ.other / lineBytes + number := by
  rw [h.dataEvicts, List.getD_eq_getElem?_getD, List.getElem?_range' hlt, Option.getD_some,
    Nat.one_mul]

theorem sendLines (h : Numbers args b r w i) (ρ : Role) :
    (args.endpoint ρ).sendLines = (w + 7) / 8 := by
  rw [Endpoint.sendLines, h.dataFlushes, List.length_range']

theorem receiveLines (h : Numbers args b r w i) (ρ : Role) :
    (args.endpoint ρ).receiveLines = (w + 7) / 8 := by
  rw [Endpoint.receiveLines, h.dataEvicts, List.length_range']

end Numbers

/-! ## Whose line it is -/

/-- The lines that a Minion writes. -/
def Endpoint.Owns (e : Endpoint) (line : ℕ) : Prop :=
  e.InSamples 0 line ∨ e.InData 0 line ∨ line = e.flagFlush .mem ∨ e.InHeader 0 line

theorem Endpoint.Unflushed.owns {e : Endpoint} {next : At} {line : ℕ}
    (h : e.Unflushed next line) : e.Owns line := by
  have hsamples (number : ℕ) : e.InSamples number line → e.InSamples 0 line := List.mem_of_mem_drop
  have hdata (number : ℕ) : e.InData number line → e.InData 0 line := List.mem_of_mem_drop
  have hheader (number : ℕ) : e.InHeader number line → e.InHeader 0 line := List.mem_of_mem_drop
  rw [Owns]
  cases next <;> simp only [Unflushed] at h <;> grind

/-- The lines of the buffer and of the results. -/
def Args.Area (args : Args) (line : ℕ) : Prop :=
  (args.buffer.toNat ≤ lineBytes * line ∧
    lineBytes * line < args.buffer.toNat + bufferBytes args.messageBytes.toNat) ∨
  (args.results.toNat ≤ lineBytes * line ∧
    lineBytes * line < args.results.toNat + resultsBytes args.iterations.toNat)

namespace Numbers

variable {b r w i : ℕ}

theorem owns_ping (h : Numbers args b r w i) {line : ℕ} (howns : (args.endpoint .ping).Owns line) :
    line = b ∨ b + 2 ≤ line ∧ line < b + 2 + (w + 7) / 8 ∨ line = r ∨
      r + 2 ≤ line ∧ line < r + 2 + (i + 3) / 4 := by
  simp only [Endpoint.Owns, Endpoint.InSamples, Endpoint.InData, Endpoint.InHeader,
    h.sampleFlushes, h.dataFlushes, h.flagFlush, h.headerFlushes, List.drop_zero,
    List.mem_range'_1, List.mem_singleton, h.flag, h.data, h.header, lineBytes] at howns
  omega

theorem owns_pong (h : Numbers args b r w i) {line : ℕ} (howns : (args.endpoint .pong).Owns line) :
    line = b + 1 ∨ b + 2 + (w + 7) / 8 ≤ line ∧ line < b + 2 + 2 * ((w + 7) / 8) ∨
      line = r + 1 := by
  simp only [Endpoint.Owns, Endpoint.InSamples, Endpoint.InData, Endpoint.InHeader,
    h.sampleFlushes, h.dataFlushes, h.flagFlush, h.headerFlushes, List.drop_zero,
    List.mem_range'_1, List.mem_singleton, List.not_mem_nil, false_or, h.flag, h.data, h.header,
    lineBytes] at howns
  omega

theorem area_of_owns (h : Numbers args b r w i) {ρ : Role} {line : ℕ}
    (howns : (args.endpoint ρ).Owns line) : args.Area line := by
  simp only [Args.Area, h.buffer, h.results, h.words, h.iterations, bufferBytes, replyDataOffset,
    forwardDataOffset, nextMultipleOf, resultsBytes, samplesOffset, sampleWords, lineBytes]
  cases ρ with
  | ping =>
    have hline := h.owns_ping howns
    omega
  | pong =>
    have hline := h.owns_pong howns
    omega

end Numbers

/-- No line is written by both. -/
theorem Placed.owns_unique (h : Placed args hart) {ρ ρ' : Role} {line : ℕ}
    (howns : (args.endpoint ρ).Owns line) (howns' : (args.endpoint ρ').Owns line) : ρ = ρ' := by
  obtain ⟨b, r, w, i, hn⟩ := h.numbers
  have hapart := hn.apart
  have hnot (hping : (args.endpoint .ping).Owns line) (hpong : (args.endpoint .pong).Owns line) :
      False := by
    have hping := hn.owns_ping hping
    have hpong := hn.owns_pong hpong
    omega
  cases ρ <;> cases ρ'
  · rfl
  · exact (hnot howns howns').elim
  · exact (hnot howns' howns).elim
  · rfl

/-! ## The words of the areas -/

namespace Placed

variable {ρ ρ' : Role} {k k' addr : ℕ} {next : At}

theorem lineOf_word (h : Placed args hart) (ρ : Role) (k : ℕ) :
    lineOf (args.data ρ + wordBytes * k) = args.data ρ / lineBytes + k / 8 := by
  obtain ⟨b, r, w, i, hn⟩ := h.numbers
  simp only [lineOf, hn.data, lineBytes, wordBytes]
  omega

/-- The payloads share no line, -/
theorem role_eq_of_line (h : Placed args hart) (hk : k < (args.endpoint ρ).payloadWords)
    (hk' : k' < (args.endpoint ρ').payloadWords)
    (heq : lineOf (args.data ρ + wordBytes * k) = lineOf (args.data ρ' + wordBytes * k')) :
    ρ = ρ' := by
  obtain ⟨b, r, w, i, hn⟩ := h.numbers
  rw [hn.payloadWords] at hk hk'
  simp only [lineOf, hn.data, wordBytes, lineBytes] at heq
  cases ρ <;> cases ρ' <;> simp only at heq <;> first | rfl | omega

/-- and none with a flag. -/
theorem lineOf_flag_ne (h : Placed args hart) (ρ ρ' : Role) (k : ℕ) :
    lineOf (args.flag ρ) ≠ lineOf (args.data ρ' + wordBytes * k) := by
  obtain ⟨b, r, w, i, hn⟩ := h.numbers
  simp only [lineOf, hn.flag, hn.data, wordBytes, lineBytes]
  cases ρ <;> cases ρ' <;> dsimp only <;> omega

theorem flag_inj (h : Placed args hart) (heq : args.flag ρ = args.flag ρ') : ρ = ρ' := by
  obtain ⟨b, r, w, i, hn⟩ := h.numbers
  simp only [hn.flag] at heq
  cases ρ <;> cases ρ' <;> simp only at heq <;> first | rfl | omega

/-- The reports are apart from the buffer. -/
theorem reports_ne (h : Placed args hart) (hreports : (args.endpoint ρ).Reports addr) :
    (∀ ρ' k, k < (args.endpoint ρ').payloadWords →
      lineOf (args.data ρ' + wordBytes * k) ≠ lineOf addr) ∧ ∀ ρ', args.flag ρ' ≠ addr := by
  obtain ⟨b, r, w, i, hn⟩ := h.numbers
  have hapart := hn.apart
  have hplace : 64 * r ≤ addr ∧ addr < 64 * (r + 2) + 16 * i := by
    rcases hreports with ⟨k, hk, -, rfl⟩ | ⟨k, hk, rfl⟩
    · rw [hn.samples]
      simp only [Args.endpoint, hn.iterations, sampleWords, wordBytes] at hk ⊢
      omega
    · simp only [Args.endpoint, hn.header, wordBytes]
      cases ρ <;> dsimp only <;> omega
  constructor
  · intro ρ' k hk
    rw [hn.payloadWords] at hk
    simp only [lineOf, hn.data, wordBytes, lineBytes]
    cases ρ' <;> dsimp only <;> omega
  · intro ρ'
    simp only [hn.flag]
    cases ρ' <;> dsimp only <;> omega

theorem inData_word (h : Placed args hart) (hk : k < (args.endpoint ρ).payloadWords) :
    (args.endpoint ρ).InData 0 (lineOf (args.data ρ + wordBytes * k)) := by
  obtain ⟨b, r, w, i, hn⟩ := h.numbers
  rw [hn.payloadWords] at hk
  rw [h.lineOf_word, Endpoint.InData, List.drop_zero, hn.dataFlushes, List.mem_range'_1]
  omega

theorem inSamples_sample (h : Placed args hart) {number : ℕ} (hrole : ρ = .ping)
    (hfirst : 1 ≤ number) (hle : number ≤ (args.endpoint ρ).iterations) (hk : k < sampleWords) :
    (args.endpoint ρ).InSamples 0 (lineOf ((args.endpoint ρ).sample number + wordBytes * k)) := by
  obtain ⟨b, r, w, i, hn⟩ := h.numbers
  subst hrole
  replace hle : number ≤ i := hn.iterations ▸ hle
  simp only [Endpoint.InSamples, Endpoint.sample, hn.samples, hn.sampleFlushes, List.drop_zero,
    List.mem_range'_1, lineOf, lineBytes, sampleWords, wordBytes] at hk ⊢
  omega

theorem lineOf_header (h : Placed args hart) (ρ : Role) (hk : k < 5) :
    lineOf (args.header ρ + wordBytes * k) = args.header ρ / lineBytes := by
  obtain ⟨b, r, w, i, hn⟩ := h.numbers
  simp only [lineOf, hn.header, lineBytes, wordBytes]
  omega

theorem inHeader_word (h : Placed args hart) (ρ : Role) (hk : k < 5) :
    (args.endpoint ρ).InHeader 0 (lineOf (args.header ρ + wordBytes * k)) := by
  obtain ⟨_, _, _, _, hn⟩ := h.numbers
  rw [Endpoint.InHeader, hn.headerFlushes, h.lineOf_header ρ hk]
  exact List.mem_singleton_self _

/-- A store goes to a line that counts as dirty after it. -/
theorem store_unflushed (h : Placed args hart) {t : Thread} {v value : UInt64}
    (hok : Staying (args.endpoint ρ) t)
    (haccess : (args.endpoint ρ).access t = .store addr value) :
    (args.endpoint ρ).Unflushed ((args.endpoint ρ).resume t v).next (lineOf addr) := by
  obtain ⟨_, _, _, _, hn⟩ := h.numbers
  have hwithin := hok.within
  cases hending : t.next.ending with
  | false =>
    rw [Endpoint.unflushed_resume_of_going hending]
    have hle := hok.going hending
    cases hnext : t.next <;> rw [hnext] at hending hwithin <;>
      simp only [Endpoint.access, hnext, reduceCtorEq] at haccess
    case storeWord index =>
      cases haccess
      exact .inr (.inl (h.inData_word hwithin))
    case storeFlag =>
      cases haccess
      exact .inr (.inr (hn.flagFlush ρ .mem).symm)
    case storeRoundTrip =>
      cases haccess
      exact .inl (h.inSamples_sample (k := 0) hwithin hok.first hle (by decide))
    case storeSend =>
      cases haccess
      exact .inl (h.inSamples_sample (k := 1) hwithin hok.first hle (by decide))
    case storeHeader => cases hending
  | true =>
    cases hnext : t.next <;> rw [hnext] at hending hwithin <;>
      simp only [Endpoint.access, hnext, reduceCtorEq] at haccess
    case storeHeader word =>
      cases haccess
      simp only [Endpoint.resume, hnext]
      have hline := h.inHeader_word ρ hwithin
      split
      · exact hline
      · exact (Endpoint.unflushed_toHeader 0).2 hline
    all_goals cases hending

end Placed

end EtSoc.Channel
