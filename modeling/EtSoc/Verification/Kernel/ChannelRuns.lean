import EtSoc.Verification.Kernel.ChannelMemory

/-! # Launches of the channel

The invariant of a launch, whatever the order of the steps and whatever the caches do in between,
and what the host finds at the end. -/

namespace EtSoc.Channel

open CacheOps WriteBackCache System

variable {args : Args} {hart : Role → UInt32} {mem : Memory} {q : UInt32} {clock v : UInt64}
  {addr : ℕ} {access : Access}

/-! ## Launches -/

/-- What the host and the earlier launches leave: no value of a flag of this launch, neither in
the memory nor in a cache, and no dirty line of the areas. -/
structure Prepared (args : Args) (mem : Memory) : Prop where
  stale : ∀ ρ, mem.Visible lineOf (args.flag ρ) fun v =>
    ∀ i, 1 ≤ i → i ≤ args.iterations.toNat → v ≠ (args.endpoint ρ).flagValue i
  clean : mem.DirtyIn fun _ line => ¬args.Area line

/-- The outcome is in the header, as far as it is stored. -/
def Headed (args : Args) (hart : Role → UInt32) (mem : Memory) (ρ : Role) (t : Thread) : Prop :=
  ∀ k < 5, k < Endpoint.reported t.next →
    mem.Holds lineOf (path (hart ρ)) (args.header ρ + wordBytes * k) (t.outcome.words.getD k 0)

theorem Headed.of_reported {ρ : Role} {t : Thread} (h : Endpoint.reported t.next = 0) :
    Headed args hart mem ρ t := by
  intro k _ hk
  rw [h] at hk
  exact absurd hk (Nat.not_lt_zero k)

/-- Where a line of the areas may be dirty: on the way of the Minion that has yet to flush it. -/
def DirtyAt (args : Args) (hart : Role → UInt32) (unflushed : Role → ℕ → Prop) (c : Cache)
    (line : ℕ) : Prop :=
  args.Area line → ∃ ρ, c ∈ path (hart ρ) ∧ unflushed ρ line

theorem DirtyAt.next {unflushed : Role → ℕ → Prop} (c d : Cache) (line : ℕ)
    (hnext : hierarchy.next c = some d) (h : DirtyAt args hart unflushed c line) :
    DirtyAt args hart unflushed d line := by
  intro harea
  obtain ⟨ρ, hc, hunflushed⟩ := h harea
  exact ⟨ρ, (isPath_path _).mem_of_next hc hnext, hunflushed⟩

def State.unflushed (args : Args) (hart : Role → UInt32) (s : State) (ρ : Role) (line : ℕ) : Prop :=
  (args.endpoint ρ).Unflushed (s.threads (hart ρ)).next line

structure Inv (args : Args) (hart : Role → UInt32) (s : State) : Prop where
  ok : ∀ ρ, ThreadOk (args.endpoint ρ) (s.threads (hart ρ))
  known : Known args hart s.mem fun ρ => (args.endpoint ρ).account (s.threads (hart ρ))
  dirty : s.mem.DirtyIn (DirtyAt args hart (s.unflushed args hart))
  header : ∀ ρ, Headed args hart s.mem ρ (s.threads (hart ρ))

variable {s : State}

theorem Placed.entryPoint (h : Placed args hart) (ρ : Role) :
    args.entryPoint (hart ρ) = (args.endpoint ρ).loop (Args.begin statusOk) := by
  rw [Args.entryPoint, h.role ρ]
  exact if_pos ⟨h.valid ρ, h.writeback, h.invalidate⟩

theorem Inv.start (hplaced : Placed args hart) (hprepared : Prepared args mem) :
    Inv args hart (start args mem) := by
  have hok (ρ : Role) : ThreadOk (args.endpoint ρ) (args.entryPoint (hart ρ)) := by
    rw [hplaced.entryPoint]
    exact .loop (Nat.le_refl 1) (Nat.le_add_left ..) rfl
  have hreported (ρ : Role) : Endpoint.reported (args.entryPoint (hart ρ)).next = 0 := by
    rw [hplaced.entryPoint, Endpoint.loop]
    split
    · cases ρ <;> rfl
    · exact Endpoint.reported_toSamples 0
  refine ⟨hok, ?_, ?_, ?_⟩
  · have hnothing : Known args hart mem fun ρ =>
        ⟨0, 0, 0, (args.endpoint ρ).payloadWords, (args.endpoint ρ).sendLines, 0⟩ := by
      refine ⟨⟨?_, ?_, ?_⟩, ?_, ?_⟩
      · intro _ _ _ _ hmessage
        simp at hmessage
      · intro _ _ _ _ hmessage
        simp at hmessage
      · intro _ _ _ hevicted
        simp at hevicted
      · exact fun ρ => (hprepared.stale ρ).mono fun v hv i hlt => hv i hlt
      · exact fun _ => Nat.le_refl 0
    refine hnothing.weaken fun ρ => ?_
    change ((args.endpoint ρ).account (args.entryPoint (hart ρ))).Weaker _
    rw [hplaced.entryPoint]
    exact Endpoint.account_loop _ _
  · exact hprepared.clean.mono fun _ line hclean harea => absurd harea hclean
  · exact fun ρ => .of_reported (hreported ρ)

/-- The lines that a Minion owns are dirty on its way to the memory only. -/
theorem Inv.alone (h : Inv args hart s) (hplaced : Placed args hart) {ρ : Role} {line : ℕ}
    (howns : (args.endpoint ρ).Owns line) : s.mem.DirtyOn line (path (hart ρ)) := by
  obtain ⟨_, _, _, _, hn⟩ := hplaced.numbers
  intro c hdirty
  obtain ⟨ρ', hc, hunflushed⟩ := h.dirty c line hdirty (hn.area_of_owns howns)
  rwa [← hplaced.owns_unique hunflushed.owns howns]

theorem Inv.apart (h : Inv args hart s) (hplaced : Placed args hart) : Apart args hart s.mem :=
  fun _ _ hk => h.alone hplaced (.inr (.inl (hplaced.inData_word hk)))

theorem Placed.owns_header (h : Placed args hart) (ρ : Role) {k : ℕ} (hk : k < 5) :
    (args.endpoint ρ).Owns (lineOf (args.header ρ + wordBytes * k)) :=
  .inr (.inr (.inr (h.inHeader_word ρ hk)))

theorem Inv.ordered (h : Inv args hart s) (ρ : Role) :
    ((args.endpoint ρ).account (s.threads (hart ρ))).Ordered (args.endpoint ρ) :=
  (h.ok ρ).ordered

/-- An access that does not store to the line of the header. -/
theorem Headed.keep {ρ : Role} {t : Thread} (h : Headed args hart mem ρ t)
    (hstore : ∀ b w, access = .store b w → ∀ k < 5,
      lineOf (args.header ρ + wordBytes * k) ≠ lineOf b) :
    Headed args hart (perform q clock mem access).2 ρ t :=
  fun k hk hlt => perform_holds (h k hk hlt) (isPath_path _) fun b w heq =>
    .inl (hstore b w heq k hk)

/-! ### What the caches do of their own accord -/

theorem Payloads.move {a : Role → Account} (h : Payloads args hart mem a) (c : Cache) (line : ℕ)
    (k : Move) : Payloads args hart (mem.move hierarchy lineOf c line k) a :=
  ⟨fun ρ k hk hstored hmessage => (h.sent ρ k hk hstored hmessage).move (isPath_path _),
    fun ρ k hk hstored hmessage hflushed =>
      (h.settled ρ k hk hstored hmessage hflushed).move (isPath_common _ _),
    fun ρ k hk hevicted => (h.fresh ρ k hk hevicted).move (isPath_path _)⟩

theorem Inv.cache (h : Inv args hart s) (c : Cache) (line : ℕ) (k : Move) :
    Inv args hart { s with mem := s.mem.move hierarchy lineOf c line k } :=
  ⟨h.ok, ⟨h.known.toPayloads.move c line k, fun ρ => (h.known.flags ρ).move, h.known.asked⟩,
    h.dirty.move DirtyAt.next,
    fun ρ number hk hlt => (h.header ρ number hk hlt).move (isPath_path _)⟩

/-! ### Steps of the Minions -/

theorem expected_eq_word (args : Args) (ρ : Role) (number index : ℕ) :
    (args.endpoint ρ).expected number index = (args.endpoint ρ.other).word number index := by
  cases ρ <;> rfl

/-- Every word that a Minion reads is the one that it expects. -/
theorem Inv.load_eq (h : Inv args hart s) (hplaced : Placed args hart) {ρ : Role} {index : ℕ}
    (hnext : (s.threads (hart ρ)).next = .loadWord index) :
    (perform (hart ρ) clock s.mem ((args.endpoint ρ).access (s.threads (hart ρ)))).1 =
      (args.endpoint ρ).expected (s.threads (hart ρ)).iteration index := by
  obtain ⟨_, _, w, _, hn⟩ := hplaced.numbers
  have hindex := (h.ok ρ).within
  rw [hnext] at hindex
  replace hindex : index < (args.endpoint ρ).payloadWords := hindex
  have haccount : ((args.endpoint ρ).account (s.threads (hart ρ))).evicted =
      (args.endpoint ρ).receiveLines ∧
      ((args.endpoint ρ).account (s.threads (hart ρ))).heard = (s.threads (hart ρ)).iteration := by
    cases ρ <;>
      simp only [Endpoint.account, Endpoint.pingAccount, Endpoint.pongAccount, hnext,
        show ∀ r, (args.endpoint r).role = r from fun _ => rfl, and_self]
  have hevicted : index / 8 < ((args.endpoint ρ).account (s.threads (hart ρ))).evicted := by
    rw [hn.payloadWords] at hindex
    rw [haccount.1, hn.receiveLines]
    omega
  have hfresh := h.known.fresh ρ index hindex hevicted
  rw [haccount.2] at hfresh
  rw [expected_eq_word]
  simp only [Endpoint.access, hnext]
  exact Holds.load hfresh

/-- A step of a Minion stores only to lines of its own. -/
theorem Placed.store_owned (hplaced : Placed args hart) {ρ : Role} {t : Thread} {b : ℕ} {w : UInt64}
    (ht : Staying (args.endpoint ρ) t) (haccess : (args.endpoint ρ).access t = .store b w) :
    (args.endpoint ρ).Owns (lineOf b) :=
  (hplaced.store_unflushed (v := 0) ht haccess).owns

theorem header_inj {ρ : Role} {k k' : ℕ}
    (heq : args.header ρ + wordBytes * k = args.header ρ + wordBytes * k') : k = k' := by
  simp only [wordBytes] at heq
  omega

/-- The header after a step of its own Minion. -/
theorem Headed.advance {ρ : Role} {t : Thread} (h : Headed args hart mem ρ t)
    (hok : ThreadOk (args.endpoint ρ) t)
    (halone : ∀ k < 5, mem.DirtyOn (lineOf (args.header ρ + wordBytes * k)) (path (hart ρ))) :
    Headed args hart (perform (hart ρ) clock mem ((args.endpoint ρ).access t)).2 ρ
      ((args.endpoint ρ).resume t v) := by
  cases Endpoint.heads hok.toStaying v with
  | nothing hnone => exact .of_reported hnone
  | word number hnumber hnext hreported =>
    intro k hk hlt
    have haccess : (args.endpoint ρ).access t =
        .store (args.header ρ + wordBytes * number) (t.outcome.words.getD number 0) := by
      simp only [Endpoint.access, hnext]
      rfl
    have houtcome : ((args.endpoint ρ).resume t v).outcome = t.outcome := by
      simp only [Endpoint.resume, hnext]
    rw [haccess, houtcome]
    by_cases heq : k = number
    · subst heq
      exact Holds.of_store (halone k hk)
    · refine perform_holds (h k hk ?_) (isPath_path _) fun b w hw => .inr ⟨rfl, fun hb => ?_⟩
      · rw [hnext]
        simp only [Endpoint.reported]
        omega
      · rw [← (Access.store.inj hw).1] at hb
        exact heq (header_inj hb)
  | rest hreported houtcome hnone =>
    intro k hk _
    rw [houtcome]
    exact perform_holds (h k hk (hreported ▸ hk)) (isPath_path _)
      fun b w hw => absurd hw (hnone b w)

/-- The dirty lines after a step of a Minion. -/
theorem Inv.advance_dirty (h : Inv args hart s) (hplaced : Placed args hart) (ρ : Role)
    (clock v : UInt64) :
    (perform (hart ρ) clock s.mem ((args.endpoint ρ).access (s.threads (hart ρ)))).2.DirtyIn
      (DirtyAt args hart (Function.update (s.unflushed args hart) ρ
        ((args.endpoint ρ).Unflushed ((args.endpoint ρ).resume (s.threads (hart ρ)) v).next))) := by
  obtain ⟨_, _, _, _, hn⟩ := hplaced.numbers
  set t := s.threads (hart ρ) with ht
  have hold : s.mem.DirtyIn (DirtyAt args hart fun ρ' line => s.unflushed args hart ρ' line ∨
      ρ' = ρ ∧ (args.endpoint ρ).Unflushed ((args.endpoint ρ).resume t v).next line) := by
    refine h.dirty.mono fun c line hdirty harea => ?_
    obtain ⟨ρ', hc, hunflushed⟩ := hdirty harea
    exact ⟨ρ', hc, .inl hunflushed⟩
  have hnew : (perform (hart ρ) clock s.mem ((args.endpoint ρ).access t)).2.DirtyIn _ :=
    perform_dirtyIn hold DirtyAt.next fun b w haccess _ =>
      ⟨ρ, List.mem_cons_self, .inr ⟨rfl, hplaced.store_unflushed (h.ok ρ).toStaying haccess⟩⟩
  intro c line hline harea
  obtain ⟨ρ', hc, hunflushed⟩ := hnew c line hline harea
  refine ⟨ρ', hc, ?_⟩
  rcases eq_or_ne ρ' ρ with rfl | hne
  · rw [Function.update_self]
    refine hunflushed.elim (fun hunflushed => ?_) And.right
    rcases Endpoint.Unflushed.resume (v := v) hunflushed with hstill | hflush
    · exact hstill
    · rw [hflush] at hline
      exact absurd (flush_dirtyOn (h.alone hplaced hunflushed.owns) .mem c hline) List.not_mem_nil
  · rw [Function.update_of_ne hne]
    exact hunflushed.resolve_right fun hρ => hne hρ.1

/-- A step of a Minion keeps the invariant. -/
theorem Inv.advance (h : Inv args hart s) (hplaced : Placed args hart) (ρ : Role)
    (clock : UInt64) : Inv args hart (advance (args.endpoint ρ) (hart ρ) clock s) := by
  set t := s.threads (hart ρ) with ht
  set r := perform (hart ρ) clock s.mem ((args.endpoint ρ).access t) with hr
  have hother {ρ' : Role} (hne : ρ' ≠ ρ) : hart ρ' ≠ hart ρ := fun heq => hne (hplaced.hart_inj heq)
  have hthreads (ρ' : Role) :
      (Channel.advance (args.endpoint ρ) (hart ρ) clock s).threads (hart ρ') =
      Function.update (fun ρ => s.threads (hart ρ)) ρ ((args.endpoint ρ).resume t r.1) ρ' := by
    rcases eq_or_ne ρ' ρ with rfl | hne
    · rw [Function.update_self]
      exact Function.update_self ..
    · rw [Function.update_of_ne hne]
      exact Function.update_of_ne (hother hne) ..
  refine ⟨fun ρ' => ?_, ?_, ?_, fun ρ' => ?_⟩
  · rw [hthreads]
    rcases eq_or_ne ρ' ρ with rfl | hne
    · rw [Function.update_self]
      exact (h.ok ρ').resume fun index hnext => h.load_eq hplaced hnext
    · rw [Function.update_of_ne hne]
      exact h.ok ρ'
  · obtain ⟨b, hact, hweaker⟩ := Endpoint.steps (h.ok ρ) r.1
    have hknown := h.known.act hplaced h.ordered (h.apart hplaced) hact
    refine hknown.weaken fun ρ' => ?_
    rw [hthreads]
    rcases eq_or_ne ρ' ρ with rfl | hne
    · simpa only [Function.update_self] using hweaker
    · simpa only [Function.update_of_ne hne] using .rfl
  · have hunflushed : (Channel.advance (args.endpoint ρ) (hart ρ) clock s).unflushed args hart =
        Function.update (s.unflushed args hart) ρ
          ((args.endpoint ρ).Unflushed ((args.endpoint ρ).resume t r.1).next) := by
      funext ρ'
      change (args.endpoint ρ').Unflushed
        ((Channel.advance (args.endpoint ρ) (hart ρ) clock s).threads (hart ρ')).next = _
      rw [hthreads]
      rcases eq_or_ne ρ' ρ with rfl | hne
      · rw [Function.update_self, Function.update_self]
      · rw [Function.update_of_ne hne, Function.update_of_ne hne]
        rfl
    rw [hunflushed]
    exact h.advance_dirty hplaced ρ clock r.1
  · rw [hthreads]
    rcases eq_or_ne ρ' ρ with rfl | hne
    · rw [Function.update_self]
      exact (h.header ρ').advance (h.ok ρ') fun k hk =>
        h.alone hplaced (hplaced.owns_header ρ' hk)
    · rw [Function.update_of_ne hne]
      refine (h.header ρ').keep fun b w haccess k hk heq => ?_
      have howns := hplaced.store_owned (h.ok ρ).toStaying haccess
      rw [← heq] at howns
      exact hne (hplaced.owns_unique (hplaced.owns_header ρ' hk) howns)

theorem Inv.happen (h : Inv args hart s) (hplaced : Placed args hart) (event : Event) :
    Inv args hart (happen args s event) := by
  cases event with
  | step x clock =>
    cases hrole : args.role x with
    | none => simpa only [Channel.happen, hrole] using h
    | some ρ =>
      simp only [Channel.happen, hrole]
      rw [hplaced.eq_hart hrole]
      exact h.advance hplaced ρ clock
  | cache c line k => exact h.cache c line k

theorem Inv.launch (hplaced : Placed args hart) (hprepared : Prepared args mem)
    (events : List Event) : Inv args hart (launch args events mem) := by
  rw [Channel.launch]
  generalize hs : Channel.start args mem = s
  have hinv : Inv args hart s := hs ▸ .start hplaced hprepared
  clear hs
  induction events generalizing s with
  | nil => exact hinv
  | cons event events ih => exact ih _ (hinv.happen hplaced event)

/-- A Minion keeps to its loops in every launch, whatever the memory has. -/
theorem Placed.staying (hplaced : Placed args hart) (events : List Event) (mem : Memory)
    (ρ : Role) : Staying (args.endpoint ρ) ((launch args events mem).threads (hart ρ)) := by
  rw [Channel.launch]
  generalize hs : Channel.start args mem = s
  have hstaying : Staying (args.endpoint ρ) (s.threads (hart ρ)) := by
    rw [← hs]
    change Staying _ (args.entryPoint (hart ρ))
    rw [hplaced.entryPoint]
    exact .loop (Nat.le_refl 1) (Nat.le_add_left ..)
  clear hs
  induction events generalizing s with
  | nil => exact hstaying
  | cons event events ih =>
    refine ih _ ?_
    cases event with
    | cache c line k => exact hstaying
    | step x clock =>
      cases hrole : args.role x with
      | none => simpa only [Channel.happen, hrole] using hstaying
      | some ρ' =>
        simp only [Channel.happen, hrole, advance]
        rcases eq_or_ne x (hart ρ) with rfl | hne
        · rw [Function.update_self]
          rw [hplaced.role] at hrole
          cases hrole
          exact hstaying.resume _
        · rwa [Function.update_of_ne hne.symm]

/-! ## Two Minions of one shire -/

def pair : Args := ⟨0x1000, 0x4000, 8, 1000, 0, 0, 0, 1, 1, 2, 7, 2⟩

def pairHart : Role → UInt32
  | .ping => 0
  | .pong => 2

/-- A zeroed memory, and nothing in the caches. -/
def cold : Memory := ⟨fun _ => 0, fun _ _ => .absent, fun _ _ => 0⟩

/-- The two take their steps in turn. -/
def alternately (n : ℕ) : List Event := (List.replicate n [.step 0 0, .step 2 0]).flatten

theorem placed_pair : Placed pair pairHart := by
  refine ⟨?_, ?_, fun ρ => ?_, ?_, ?_, ?_, ?_, ?_⟩
  case refine_3 => cases ρ <;> decide
  all_goals decide

theorem prepared_cold : Prepared pair cold := by
  have hzero (ρ : Role) : ∀ i < 3, 1 ≤ i → (0 : UInt64) ≠ (pair.endpoint ρ).flagValue i := by
    cases ρ <;> decide
  refine ⟨fun ρ => ⟨fun i hfirst hlast => hzero ρ i (Nat.lt_succ_of_le hlast) hfirst, ?_⟩, ?_⟩
  · intro _ hcached
    exact absurd rfl hcached
  · intro _ _ hdirty
    cases hdirty

theorem returned_pair (ρ : Role) :
    ((launch pair (alternately 49) cold).threads (pairHart ρ)).next = .returned := by
  cases ρ <;> decide +kernel

/-! ## What a launch comes to -/

/-- Every word arrives as it was sent. -/
theorem Placed.errors_eq_zero (hplaced : Placed args hart) (hprepared : Prepared args mem)
    (events : List Event) (ρ : Role) :
    ((launch args events mem).threads (hart ρ)).outcome.errors = 0 := by
  have hok := (Inv.launch hplaced hprepared events).ok ρ
  cases hending : ((launch args events mem).threads (hart ρ)).next.ending with
  | false => rw [hok.outcome hending]
  | true => rcases hok.ended hending with ⟨-, houtcome⟩ | ⟨-, houtcome⟩ <;> rw [houtcome]

theorem errors_eq_zero_pair :
    ((launch pair (alternately 20) cold).threads (pairHart .pong)).outcome.errors = 0 :=
  placed_pair.errors_eq_zero prepared_cold (alternately 20) .pong

/-! ### Turns -/

/-- The points at which a Minion works on a payload. -/
def At.onPayload : At → Bool
  | .storeWord _ | .flushData _ | .evictData _ | .loadWord _ | .retireData _ => true
  | _ => false

/-- The line that an access is to. -/
def Access.line : Access → Option ℕ
  | .load addr => some (lineOf addr)
  | .store addr _ => some (lineOf addr)
  | .flush _ line => some line
  | .evict _ line => some line
  | .clock | .none => Option.none

theorem ThreadOk.awake {ρ : Role} {t : Thread} (h : ThreadOk (args.endpoint ρ) t)
    (hnext : t.next.onPayload = true) (hgoing : t.next.ending = false) :
    ((args.endpoint ρ).account t).Awake ρ := by
  have hfirst := h.first
  cases ρ <;> cases ht : t.next <;> rw [ht] at hnext hgoing <;>
    simp [At.onPayload, At.ending, Account.Awake, Endpoint.account, Endpoint.pingAccount,
      Endpoint.pongAccount, ht, show ∀ r, (args.endpoint r).role = r from fun _ => rfl]
      at hnext hgoing ⊢ <;>
    omega

theorem mem_of_getD {lines : List ℕ} {number : ℕ} (h : number < lines.length) :
    lines.getD number 0 ∈ lines := by
  rw [List.getD_eq_getElem?_getD, List.getElem?_eq_getElem h, Option.getD_some]
  exact List.getElem_mem h

/-- A Minion comes to lines of its own and to the flag of the other one, but for the payload that
it reads in its loop. -/
theorem Placed.access_line (hplaced : Placed args hart) {ρ : Role} {t : Thread} {line : ℕ}
    (ht : Staying (args.endpoint ρ) t) (hline : ((args.endpoint ρ).access t).line = some line) :
    (args.endpoint ρ).Owns line ∨ line = lineOf (args.flag ρ.other) ∨
      t.next.onPayload = true ∧ t.next.ending = false := by
  obtain ⟨_, _, _, _, hn⟩ := hplaced.numbers
  have hwithin := ht.within
  have hdata (dst : CacheDest) : (args.endpoint ρ).dataFlushes dst =
      (args.endpoint ρ).dataFlushes .mem := by rw [hn.dataFlushes, hn.dataFlushes]
  by_cases hstore : ∃ addr value, (args.endpoint ρ).access t = .store addr value
  · obtain ⟨addr, value, haccess⟩ := hstore
    rw [haccess] at hline
    cases hline
    exact .inl (hplaced.store_owned ht haccess)
  · cases hnext : t.next <;> rw [hnext] at hwithin <;>
      simp only [Endpoint.access, hnext, Access.line, reduceCtorEq, Option.some.injEq,
        Access.store.injEq, exists_and_left, exists_eq', and_true, not_true_eq_false] at hline hstore
    case flushData number =>
      have hmem := mem_of_getD hwithin
      rw [hline, hdata] at hmem
      exact .inl (.inr (.inl hmem))
    case flushFlag =>
      rw [hn.flagFlush] at hline
      exact .inl (.inr (.inr (.inl (by rw [hn.flagFlush, hline]))))
    case evictFlag =>
      rw [hn.flagEvict] at hline
      exact .inr (.inl hline.symm)
    case loadFlag => exact .inr (.inl hline.symm)
    case evictData => exact .inr (.inr ⟨rfl, rfl⟩)
    case loadWord => exact .inr (.inr ⟨rfl, rfl⟩)
    case flushSamples number =>
      have hmem := mem_of_getD hwithin
      rw [hline] at hmem
      exact .inl (.inl hmem)
    case retireData number =>
      have hmem := mem_of_getD hwithin
      rw [hline] at hmem
      exact .inl (.inr (.inl hmem))
    case retireFlag => exact .inl (.inr (.inr (.inl hline.symm)))
    case flushHeader number =>
      have hmem := mem_of_getD hwithin
      rw [hline] at hmem
      exact .inl (.inr (.inr (.inr hmem)))

/-- The payloads are handed over: two Minions work on them at once only when one of them has left
its loop, and nobody comes to a line that the other is about to store to. -/
structure TakesTurns (args : Args) (hart : Role → UInt32) (s : State) : Prop where
  turns : (s.threads (hart .ping)).next.onPayload = true →
    (s.threads (hart .pong)).next.onPayload = true →
    (s.threads (hart .ping)).next.ending = true ∨ (s.threads (hart .pong)).next.ending = true
  exclusive : ∀ ρ index, (s.threads (hart ρ)).next = .storeWord index →
    ((args.endpoint ρ.other).access (s.threads (hart ρ.other))).line ≠
      some (lineOf (args.data ρ + wordBytes * index))

/-- The two Minions take turns with the payloads. -/
theorem Placed.takesTurns (hplaced : Placed args hart) (hprepared : Prepared args mem)
    (events : List Event) : TakesTurns args hart (launch args events mem) := by
  have hinv := Inv.launch hplaced hprepared events
  generalize launch args events mem = s at *
  have hwaits (ρ : Role) (hnext : (s.threads (hart ρ)).next.onPayload = true)
      (hgoing : (s.threads (hart ρ)).next.ending = false)
      (hnext' : (s.threads (hart ρ.other)).next.onPayload = true) :
      (s.threads (hart ρ.other)).next.ending ≠ false := fun hgoing' =>
    (other_of_awake hinv.ordered hinv.known.asked ((hinv.ok ρ).awake hnext hgoing)).1
      ((hinv.ok ρ.other).awake hnext' hgoing')
  refine ⟨fun hping hpong => ?_, fun ρ index hnext hline => ?_⟩
  · cases hgoing : (s.threads (hart .ping)).next.ending with
    | true => exact .inl rfl
    | false =>
      refine .inr (Bool.not_eq_false _ ▸ ?_)
      exact hwaits .ping hping hgoing hpong
  · have hindex := (hinv.ok ρ).within
    rw [hnext] at hindex
    rcases hplaced.access_line (hinv.ok ρ.other).toStaying hline with howns | hflag | ⟨hon, hgoing⟩
    · have hself := hplaced.owns_unique howns (.inr (.inl (hplaced.inData_word hindex)))
      cases ρ <;> cases hself
    · rw [show ρ.other.other = ρ by cases ρ <;> rfl] at hflag
      exact hplaced.lineOf_flag_ne ρ ρ index hflag.symm
    · exact hwaits ρ (by rw [hnext]; rfl) (by rw [hnext]; rfl) hon hgoing

theorem takesTurns_pair : TakesTurns pair pairHart (launch pair (alternately 1) cold) :=
  placed_pair.takesTurns prepared_cold (alternately 1)

/-! ### The headers -/

/-- A Minion that has returned has completed the messages that it has heard of, and its status
says whether these are all. -/
theorem ThreadOk.returned {e : Endpoint} {t : Thread} (h : ThreadOk e t)
    (hreturned : t.next = .returned) (hlt : e.iterations < 2 ^ 20) :
    t.outcome.errors = 0 ∧ t.outcome.completed.toNat = (e.account t).heard ∧
      (t.outcome.status = statusOk ↔ t.outcome.completed.toNat = e.iterations) := by
  have hsize : UInt64.size = 2 ^ 64 := rfl
  have hfirst := h.first
  have hheard : (e.account t).heard = t.iteration - 1 := by
    cases hrole : e.role <;>
      simp only [Endpoint.account, hrole, hreturned, Endpoint.pingAccount, Endpoint.pongAccount]
    split <;> rfl
  rw [hheard]
  rcases h.ended (by rw [hreturned]; rfl) with ⟨hall, houtcome⟩ | ⟨hle, houtcome⟩
  · rw [houtcome, hall]
    simp [UInt64.toNat_ofNat_of_lt' (show e.iterations < UInt64.size by omega)]
  · have hnat : (UInt64.ofNat (t.iteration - 1)).toNat = t.iteration - 1 :=
      UInt64.toNat_ofNat_of_lt' (by omega)
    rw [houtcome]
    refine ⟨rfl, hnat, fun hstatus => ?_, fun hall => ?_⟩
    · exact absurd (show statusTimeout = statusOk from hstatus) (by decide)
    · rw [hnat] at hall
      omega

/-- What the memory has in the header of a Minion, as the host reads it. -/
def headerWord (args : Args) (mem : Memory) (ρ : Role) (k : ℕ) : UInt64 :=
  mem.memory (args.header ρ + wordBytes * k)

/-- The headers that the host reads after a launch. -/
structure Headers (args : Args) (mem : Memory) : Prop where
  errors : ∀ ρ, headerWord args mem ρ headerErrors = 0
  status : ∀ ρ, headerWord args mem ρ headerStatus = statusOk ↔
    (headerWord args mem ρ headerCompleted).toNat = args.iterations.toNat
  pong_le : (headerWord args mem .pong headerCompleted).toNat ≤
    (headerWord args mem .ping headerCompleted).toNat + 1
  ping_le : (headerWord args mem .ping headerCompleted).toNat ≤
    (headerWord args mem .pong headerCompleted).toNat

/-- Nothing is left to be written back once both have returned. -/
theorem Inv.clean (h : Inv args hart s)
    (hreturned : ∀ ρ, (s.threads (hart ρ)).next = .returned) (c : Cache) {line : ℕ}
    (harea : args.Area line) : s.mem.state c line ≠ .dirty := by
  intro hdirty
  obtain ⟨ρ, -, hunflushed⟩ := h.dirty c line hdirty harea
  rw [State.unflushed, hreturned] at hunflushed
  exact hunflushed

theorem Placed.headers (hplaced : Placed args hart) (hprepared : Prepared args mem)
    (events : List Event)
    (hreturned : ∀ ρ, ((launch args events mem).threads (hart ρ)).next = .returned) :
    Headers args (launch args events mem).mem := by
  obtain ⟨_, _, _, i, hn⟩ := hplaced.numbers
  have hinv := Inv.launch hplaced hprepared events
  generalize launch args events mem = s at *
  have hword (ρ : Role) (k : ℕ) (hk : k < 5) :
      headerWord args s.mem ρ k = (s.threads (hart ρ)).outcome.words.getD k 0 := by
    have hheld := hinv.header ρ k hk (by rw [hreturned]; exact hk)
    exact hheld.memory (isPath_path _) fun c =>
      hinv.clean hreturned c (hn.area_of_owns (hplaced.owns_header ρ hk))
  have hdone (ρ : Role) := (hinv.ok ρ).returned (hreturned ρ) (by
    change args.iterations.toNat < _
    rw [hn.iterations]
    exact hn.iterations_lt)
  have herrors (ρ : Role) : headerWord args s.mem ρ headerErrors =
    (s.threads (hart ρ)).outcome.errors := hword ρ 1 (by decide)
  have hcompleted (ρ : Role) : headerWord args s.mem ρ headerCompleted =
    (s.threads (hart ρ)).outcome.completed := hword ρ 2 (by decide)
  have hstatus (ρ : Role) : headerWord args s.mem ρ headerStatus =
    (s.threads (hart ρ)).outcome.status := hword ρ 0 (by decide)
  have hturn := (hinv.ordered .ping).turn
  have hasked := hinv.known.asked .ping
  have hanswered := hinv.known.asked .pong
  simp only [Account.Awake, Account.Waiting, show (args.endpoint .ping).role = .ping from rfl]
    at hturn
  have hlast : ((args.endpoint .pong).account (s.threads (hart .pong))).flagged =
      ((args.endpoint .pong).account (s.threads (hart .pong))).heard := by
    simp only [Endpoint.account, show (args.endpoint .pong).role = .pong from rfl,
      hreturned .pong, Endpoint.pongAccount]
  constructor
  · exact fun ρ => (herrors ρ).trans (hdone ρ).1
  · intro ρ
    rw [hstatus, hcompleted]
    exact (hdone ρ).2.2
  · rw [hcompleted, hcompleted, (hdone .ping).2.1, (hdone .pong).2.1]
    simp only [Role.other] at *
    omega
  · rw [hcompleted, hcompleted, (hdone .ping).2.1, (hdone .pong).2.1]
    simp only [Role.other] at *
    omega

theorem headers_pair : Headers pair (launch pair (alternately 49) cold).mem :=
  placed_pair.headers prepared_cold (alternately 49) returned_pair

/-! ### After the launch -/

/-- Events after both have returned leave the areas in the memory as they are. -/
theorem Inv.returned (h : Inv args hart s) (hplaced : Placed args hart)
    (hreturned : ∀ ρ, (s.threads (hart ρ)).next = .returned) (event : Event) :
    (Channel.happen args s event).threads = s.threads ∧
      ∀ addr, args.Area (lineOf addr) →
        (Channel.happen args s event).mem.memory addr = s.mem.memory addr := by
  cases event with
  | cache c line k =>
    exact ⟨rfl, fun addr harea => move_memory (h.clean hreturned c harea)⟩
  | step x clock =>
    cases hrole : args.role x with
    | none => simp only [Channel.happen, hrole, implies_true, and_self]
    | some ρ =>
      have hx := hplaced.eq_hart hrole
      subst hx
      simp only [Channel.happen, hrole, Channel.advance, Endpoint.access, Endpoint.resume,
        hreturned, perform, Function.update_eq_self, implies_true, and_self]

/-- Once both have returned no cache has a dirty line of the areas, whatever the caches do, and
what the host reads of them stays as it is. -/
theorem Placed.not_dirty (hplaced : Placed args hart) (hprepared : Prepared args mem)
    (events later : List Event)
    (hreturned : ∀ ρ, ((launch args events mem).threads (hart ρ)).next = .returned) (c : Cache)
    {addr : ℕ} (harea : args.Area (lineOf addr)) :
    (launch args (events ++ later) mem).mem.state c (lineOf addr) ≠ .dirty ∧
      (launch args (events ++ later) mem).mem.memory addr =
        (launch args events mem).mem.memory addr := by
  have hinv := Inv.launch hplaced hprepared events
  have happend : launch args (events ++ later) mem =
      later.foldl (happen args) (launch args events mem) := List.foldl_append
  rw [happend]
  generalize launch args events mem = s at *
  suffices hall : Inv args hart (later.foldl (happen args) s) ∧
      (later.foldl (happen args) s).threads = s.threads ∧
      ∀ addr, args.Area (lineOf addr) →
        (later.foldl (happen args) s).mem.memory addr = s.mem.memory addr by
    obtain ⟨hlater, hthreads, hmemory⟩ := hall
    exact ⟨hlater.clean (by rwa [hthreads]) c harea, hmemory addr harea⟩
  clear happend harea
  induction later generalizing s with
  | nil => exact ⟨hinv, rfl, fun _ _ => rfl⟩
  | cons event later ih =>
    obtain ⟨hthreads, hmemory⟩ := hinv.returned hplaced hreturned event
    obtain ⟨hlater, hthreads', hmemory'⟩ := ih _ (by rwa [hthreads]) (hinv.happen hplaced event)
    exact ⟨hlater, hthreads'.trans hthreads,
      fun addr harea => (hmemory' addr harea).trans (hmemory addr harea)⟩

theorem not_dirty_pair :
    (launch pair (alternately 49 ++ [.cache .l3 66 .fetch, .cache (.l2 0) 66 .evict])
        cold).mem.state (.l2 0) (lineOf 4224) ≠ .dirty ∧
      (launch pair (alternately 49 ++ [.cache .l3 66 .fetch, .cache (.l2 0) 66 .evict])
        cold).mem.memory 4224 = (launch pair (alternately 49) cold).mem.memory 4224 :=
  placed_pair.not_dirty prepared_cold (alternately 49) _ returned_pair _ (.inl (by decide))

/-! ### Where they store -/

/-- No line is stored to by both, at whatever times of whatever launches. -/
theorem Placed.stores_apart (hplaced : Placed args hart) (events events' : List Event)
    (mem mem' : Memory) {addr addr' : ℕ} {value value' : UInt64}
    (hping : (args.endpoint .ping).access ((launch args events mem).threads (hart .ping)) =
      .store addr value)
    (hpong : (args.endpoint .pong).access ((launch args events' mem').threads (hart .pong)) =
      .store addr' value') :
    lineOf addr ≠ lineOf addr' := by
  intro heq
  have howns := hplaced.store_owned (hplaced.staying events mem .ping) hping
  have howns' := hplaced.store_owned (hplaced.staying events' mem' .pong) hpong
  rw [heq] at howns
  cases hplaced.owns_unique howns howns'

theorem stores_apart_pair : lineOf 4224 ≠ lineOf 4288 :=
  placed_pair.stores_apart (alternately 1) (alternately 8) cold cold
    (show (pair.endpoint .ping).access ((launch pair (alternately 1) cold).threads 0) =
      .store 4224 11400720316882385941 by decide +kernel)
    (show (pair.endpoint .pong).access ((launch pair (alternately 8) cold).threads 2) =
      .store 4288 7046023756827165674 by decide +kernel)

end EtSoc.Channel
