import EtSoc.Model.Channel

/-! # One Minion of the channel

How far a Minion is with its messages, by the point that it has reached, and what one step of it
changes of that. -/

namespace EtSoc.Channel

variable {e : Endpoint} {t : Thread} {v : UInt64}

/-! ## Points of the program -/

/-- The points after the loop over the iterations. -/
def At.ending : At → Bool
  | .flushSamples _ | .retireData _ | .retireFlag | .storeHeader _ | .flushHeader _ | .returned =>
    true
  | _ => false

namespace Endpoint

def sendLines (e : Endpoint) : ℕ := (e.dataFlushes e.writebackDestination).length
def receiveLines (e : Endpoint) : ℕ := e.dataEvicts.length
def retireLines (e : Endpoint) : ℕ := (e.dataFlushes .mem).length
def sampleLines (e : Endpoint) : ℕ := e.sampleFlushes.length

/-- The indices of the loops stay in their bounds, and only the ping side measures. -/
def Within (e : Endpoint) : At → Prop
  | .storeWord index | .loadWord index => index < e.payloadWords
  | .flushData line => line < e.sendLines
  | .retireData line => line < e.retireLines
  | .evictData line => line < e.receiveLines
  | .flushSamples line => line < e.sampleLines
  | .flushHeader line => line < e.headerFlushes.length
  | .storeHeader word => word < 5
  | .readStart | .readSent | .readFinish | .storeRoundTrip | .storeSend => e.role = .ping
  | _ => True

theorem within_toFlush (line : ℕ) : e.Within (e.toFlush line) := by
  rw [toFlush]
  split
  · assumption
  · exact True.intro

theorem within_toStore (index : ℕ) : e.Within (e.toStore index) := by
  rw [toStore]
  split
  · assumption
  · exact within_toFlush 0

theorem within_toLoad (index : ℕ) : e.Within (e.toLoad index) := by
  rw [toLoad]
  split
  · assumption
  · cases hrole : e.role with
    | ping => exact hrole
    | pong => exact within_toFlush 0

theorem within_toEvict (line : ℕ) : e.Within (e.toEvict line) := by
  rw [toEvict]
  split
  · assumption
  · exact within_toLoad 0

theorem within_toRetire (line : ℕ) : e.Within (e.toRetire line) := by
  rw [toRetire]
  split
  · assumption
  · exact True.intro

theorem within_toSamples (line : ℕ) : e.Within (e.toSamples line) := by
  rw [toSamples]
  split
  · assumption
  · exact within_toRetire 0

theorem within_toHeader (line : ℕ) : e.Within (e.toHeader line) := by
  rw [toHeader]
  split
  · assumption
  · exact True.intro

theorem ending_toFlush (line : ℕ) : (e.toFlush line).ending = false := by
  rw [toFlush]
  split <;> rfl

theorem ending_toStore (index : ℕ) : (e.toStore index).ending = false := by
  rw [toStore]
  split
  · rfl
  · exact ending_toFlush 0

theorem ending_toLoad (index : ℕ) : (e.toLoad index).ending = false := by
  rw [toLoad]
  split
  · rfl
  · cases e.role with
    | ping => rfl
    | pong => exact ending_toFlush 0

theorem ending_toEvict (line : ℕ) : (e.toEvict line).ending = false := by
  rw [toEvict]
  split
  · rfl
  · exact ending_toLoad 0

theorem ending_toRetire (line : ℕ) : (e.toRetire line).ending = true := by
  rw [toRetire]
  split <;> rfl

theorem ending_toSamples (line : ℕ) : (e.toSamples line).ending = true := by
  rw [toSamples]
  split
  · rfl
  · exact ending_toRetire 0

theorem ending_toHeader (line : ℕ) : (e.toHeader line).ending = true := by
  rw [toHeader]
  split <;> rfl

/-! ## The result of a Minion -/

/-- All iterations are done, or the wait of one of them was given up; no word was wrong. -/
def Result (e : Endpoint) (t : Thread) : Prop :=
  t.iteration = e.iterations + 1 ∧ t.outcome = ⟨statusOk, 0, .ofNat e.iterations, 0, 0⟩ ∨
  t.iteration ≤ e.iterations ∧ t.outcome =
    ⟨statusTimeout, 0, .ofNat (t.iteration - 1), .ofNat t.iteration, t.observed⟩

end Endpoint

/-- A Minion keeps to its loops. -/
structure Staying (e : Endpoint) (t : Thread) : Prop where
  within : e.Within t.next
  first : 1 ≤ t.iteration
  last : t.iteration ≤ e.iterations + 1
  going : t.next.ending = false → t.iteration ≤ e.iterations

/-- It has seen only what it expects: its outcome is without errors, and the pong side answers a
word that was right. -/
structure ThreadOk (e : Endpoint) (t : Thread) : Prop extends Staying e t where
  outcome : t.next.ending = false → t.outcome = ⟨statusOk, 0, .ofNat (t.iteration - 1), 0, 0⟩
  ended : t.next.ending = true → e.Result t
  answer : ∀ index, t.next = .storeWord index → e.role = .pong →
    t.value = e.expected t.iteration index

/-- What a step that gives `v` can come to. -/
inductive Endpoint.Resumes (e : Endpoint) (t : Thread) (v : UInt64) : Thread → Prop
  /-- On in the loop. -/
  | goOn {t' : Thread} (hgoing : t.next.ending = false) (hwithin : e.Within t'.next)
      (hending : t'.next.ending = false) (hiteration : t'.iteration = t.iteration)
      (houtcome : t'.outcome = t.outcome ∨
        ∃ index, t.next = .loadWord index ∧ v ≠ e.expected t.iteration index)
      (hanswer : ∀ index, t'.next = .storeWord index → e.role = .pong →
        t.next = .loadWord index ∧ t'.value = v) : e.Resumes t v t'
  | complete (hgoing : t.next.ending = false) : e.Resumes t v (e.complete t)
  | giveUp (hgoing : t.next.ending = false) : e.Resumes t v (e.giveUp t)
  /-- On after the loop. -/
  | goOut {t' : Thread} (hended : t.next.ending = true) (hwithin : e.Within t'.next)
      (hending : t'.next.ending = true) (hiteration : t'.iteration = t.iteration)
      (houtcome : t'.outcome = t.outcome) (hobserved : t'.observed = t.observed) : e.Resumes t v t'

namespace Endpoint

theorem toFlush_ne_storeWord (line index : ℕ) : e.toFlush line ≠ .storeWord index := by
  rw [toFlush]
  split <;> simp

theorem toLoad_ne_storeWord (number index : ℕ) : e.toLoad number ≠ .storeWord index := by
  rw [toLoad]
  split
  · simp
  · cases e.role with
    | ping => simp
    | pong => exact toFlush_ne_storeWord 0 index

theorem toEvict_ne_storeWord (line index : ℕ) : e.toEvict line ≠ .storeWord index := by
  rw [toEvict]
  split
  · simp
  · exact toLoad_ne_storeWord 0 index

/-- A step of the loop that reads no word and does not go to the answer of one. -/
theorem Resumes.quiet {t' : Thread} (hgoing : t.next.ending = false) (hwithin : e.Within t'.next)
    (hending : t'.next.ending = false) (hiteration : t'.iteration = t.iteration)
    (houtcome : t'.outcome = t.outcome) (hanswer : ∀ index, t'.next ≠ .storeWord index) :
    e.Resumes t v t' :=
  .goOn hgoing hwithin hending hiteration (.inl houtcome) fun index h => absurd h (hanswer index)

theorem resumes (hwithin : e.Within t.next) (v : UInt64) : e.Resumes t v (e.resume t v) := by
  cases hnext : t.next <;> simp only [resume, hnext] <;> rw [hnext] at hwithin
  case readStart =>
    refine .goOn (by rw [hnext]; rfl) (within_toStore 0) (ending_toStore 0) rfl (.inl rfl) ?_
    exact fun _ _ hpong => absurd (hwithin.symm.trans hpong) (by decide)
  case storeWord index =>
    cases hrole : e.role with
    | ping =>
      exact .goOn (by rw [hnext]; rfl) (within_toStore _) (ending_toStore _) rfl (.inl rfl)
        fun _ _ hpong => absurd (hrole.symm.trans hpong) (by decide)
    | pong =>
      exact .quiet (by rw [hnext]; rfl) (within_toLoad _) (ending_toLoad _) rfl rfl
        (toLoad_ne_storeWord _)
  case flushData line =>
    exact .quiet (by rw [hnext]; rfl) (within_toFlush _) (ending_toFlush _) rfl rfl
      (toFlush_ne_storeWord _)
  case storeFlag => exact .quiet (by rw [hnext]; rfl) True.intro rfl rfl rfl (by simp)
  case flushFlag =>
    cases hrole : e.role with
    | ping => exact .quiet (by rw [hnext]; rfl) hrole rfl rfl rfl (by simp)
    | pong => exact .complete (by rw [hnext]; rfl)
  case readSent => exact .quiet (by rw [hnext]; rfl) True.intro rfl rfl rfl (by simp)
  case readWait => exact .quiet (by rw [hnext]; rfl) True.intro rfl rfl rfl (by simp)
  case evictFlag => exact .quiet (by rw [hnext]; rfl) True.intro rfl rfl rfl (by simp)
  case loadFlag =>
    split
    · exact .quiet (by rw [hnext]; rfl) (within_toEvict 0) (ending_toEvict 0) rfl rfl
        (toEvict_ne_storeWord 0)
    · exact .quiet (by rw [hnext]; rfl) True.intro rfl rfl rfl (by simp)
  case readClock =>
    split
    · exact .giveUp (by rw [hnext]; rfl)
    · exact .quiet (by rw [hnext]; rfl) True.intro rfl rfl rfl (by simp)
  case evictData line =>
    exact .quiet (by rw [hnext]; rfl) (within_toEvict _) (ending_toEvict _) rfl rfl
      (toEvict_ne_storeWord _)
  case loadWord index =>
    refine .goOn (by rw [hnext]; rfl) ?_ ?_ rfl ?_ ?_
    · cases hrole : e.role <;> simp only [check, hrole]
      · exact within_toLoad _
      · exact hwithin
    · cases hrole : e.role <;> simp only [check, hrole]
      · exact ending_toLoad _
      · rfl
    · by_cases hv : v = e.expected t.iteration index
      · exact .inl (by simp [check, hv])
      · exact .inr ⟨index, hnext, hv⟩
    · intro number hstore hpong
      simp only [check, hpong, At.storeWord.injEq] at hstore
      exact ⟨hstore ▸ hnext, rfl⟩
  case readFinish => exact .quiet (by rw [hnext]; rfl) hwithin rfl rfl rfl (by simp)
  case storeRoundTrip => exact .quiet (by rw [hnext]; rfl) hwithin rfl rfl rfl (by simp)
  case storeSend => exact .complete (by rw [hnext]; rfl)
  case flushSamples line =>
    have hending := ending_toSamples (e := e) (line + 1)
    exact .goOut (by rw [hnext]; rfl) (within_toSamples (line + 1)) hending rfl rfl rfl
  case retireData line =>
    have hending := ending_toRetire (e := e) (line + 1)
    exact .goOut (by rw [hnext]; rfl) (within_toRetire (line + 1)) hending rfl rfl rfl
  case retireFlag =>
    exact .goOut (by rw [hnext]; rfl) (by simp [Within]) rfl rfl rfl rfl
  case storeHeader word =>
    refine .goOut (by rw [hnext]; rfl) ?_ ?_ rfl rfl rfl <;> dsimp only <;> split
    · simp only [Within]
      omega
    · exact within_toHeader 0
    · rfl
    · exact ending_toHeader 0
  case flushHeader line =>
    have hending := ending_toHeader (e := e) (line + 1)
    exact .goOut (by rw [hnext]; rfl) (within_toHeader (line + 1)) hending rfl rfl rfl
  case returned =>
    exact .goOut (by rw [hnext]; rfl) (by rw [hnext]; exact True.intro) (by rw [hnext]; rfl) rfl rfl
      rfl

end Endpoint

theorem Staying.loop (hfirst : 1 ≤ t.iteration) (hle : t.iteration ≤ e.iterations + 1) :
    Staying e (e.loop t) := by
  rw [Endpoint.loop]
  split
  · cases hrole : e.role <;> constructor <;> simp_all [Endpoint.Within]
  · exact ⟨Endpoint.within_toSamples 0, hfirst, hle, by simp [Endpoint.ending_toSamples]⟩

/-- A step keeps a Minion in its loops, whatever it reads. -/
theorem Staying.resume (h : Staying e t) (v : UInt64) : Staying e (e.resume t v) := by
  have hresumes := Endpoint.resumes h.within v
  generalize e.resume t v = t' at *
  cases hresumes with
  | goOn hgoing hwithin hending hiteration _ _ =>
    have hle := h.going hgoing
    exact ⟨hwithin, hiteration ▸ h.first, hiteration ▸ h.last, fun _ => hiteration ▸ hle⟩
  | complete hgoing => exact .loop (by simp) (by simpa using h.going hgoing)
  | giveUp hgoing =>
    exact ⟨Endpoint.within_toSamples 0, h.first, h.last,
      by simp [Endpoint.giveUp, Endpoint.ending_toSamples]⟩
  | goOut _ hwithin hending hiteration _ _ =>
    exact ⟨hwithin, hiteration ▸ h.first, hiteration ▸ h.last, by simp [hending]⟩

theorem loop_ne_storeWord (index : ℕ) : (e.loop t).next ≠ .storeWord index := by
  rw [Endpoint.loop]
  split
  · cases e.role <;> simp
  · intro hnext
    have hending := Endpoint.ending_toSamples (e := e) 0
    rw [show e.toSamples 0 = .storeWord index from hnext] at hending
    cases hending

theorem ThreadOk.loop (hfirst : 1 ≤ t.iteration) (hle : t.iteration ≤ e.iterations + 1)
    (houtcome : t.outcome = ⟨statusOk, 0, .ofNat (t.iteration - 1), 0, 0⟩) :
    ThreadOk e (e.loop t) := by
  refine ⟨.loop hfirst hle, ?_, ?_, fun index hnext => absurd hnext (loop_ne_storeWord index)⟩
  · rw [Endpoint.loop]
    split <;> exact fun _ => houtcome
  · rw [Endpoint.loop]
    split
    · cases e.role <;> simp [At.ending]
    · have heq : t.iteration = e.iterations + 1 := by omega
      exact fun _ => .inl ⟨heq, by rw [houtcome, heq, Nat.add_sub_cancel]⟩

/-- A step keeps a Minion's account, if the word that it reads is the one that must arrive. -/
theorem ThreadOk.resume (h : ThreadOk e t)
    (hload : ∀ index, t.next = .loadWord index → v = e.expected t.iteration index) :
    ThreadOk e (e.resume t v) := by
  have hstaying := h.toStaying.resume v
  have hresumes := Endpoint.resumes h.within v
  generalize e.resume t v = t' at *
  cases hresumes with
  | goOn hgoing _ hending hiteration houtcome hanswer =>
    have hsame : t'.outcome = t.outcome := by
      refine houtcome.resolve_right ?_
      rintro ⟨index, hnext, hne⟩
      exact hne (hload index hnext)
    refine ⟨hstaying, fun _ => ?_, by simp [hending], fun index hnext hrole => ?_⟩
    · rw [hiteration, hsame]
      exact h.outcome hgoing
    · obtain ⟨hread, hvalue⟩ := hanswer index hnext hrole
      rw [hvalue, hiteration]
      exact hload index hread
  | complete hgoing =>
    refine .loop (by simp) (by simpa using h.going hgoing) ?_
    simp [h.outcome hgoing]
  | giveUp hgoing =>
    refine ⟨hstaying, ?_, fun _ => .inr ⟨h.going hgoing, ?_⟩, fun index hnext => ?_⟩
    · simp [Endpoint.giveUp, Endpoint.ending_toSamples]
    · simp [Endpoint.giveUp, h.outcome hgoing]
    · have hending := Endpoint.ending_toSamples (e := e) 0
      rw [show e.toSamples 0 = .storeWord index from hnext] at hending
      cases hending
  | goOut hended _ hending hiteration houtcome hobserved =>
    refine ⟨hstaying, by simp [hending], fun _ => ?_, fun index hnext => ?_⟩
    · rw [Endpoint.Result, hiteration, houtcome, hobserved]
      exact h.ended hended
    · rw [hnext] at hending
      cases hending

/-! ## How far the messages are -/

/-- What a Minion has done: the last messages whose flags it raised and saw, the message in its
send area with the words of it that are stored and the lines that are written back, and the
lines of the receive area that it evicted since it saw the flag. -/
structure Account where
  flagged : ℕ
  heard : ℕ
  message : ℕ
  stored : ℕ
  flushed : ℕ
  evicted : ℕ
deriving DecidableEq, Repr

namespace Endpoint

/-- The ping side raises its flag for a message, and then waits for the same number. -/
def pingAccount (e : Endpoint) (i : ℕ) : At → Account
  | .readStart => ⟨i - 1, i - 1, i, 0, 0, 0⟩
  | .storeWord index => ⟨i - 1, i - 1, i, index, 0, 0⟩
  | .flushData line => ⟨i - 1, i - 1, i, e.payloadWords, line, 0⟩
  | .storeFlag => ⟨i - 1, i - 1, i, e.payloadWords, e.sendLines, 0⟩
  | .flushFlag | .readSent | .readWait | .evictFlag | .loadFlag | .readClock =>
    ⟨i, i - 1, i, e.payloadWords, e.sendLines, 0⟩
  | .evictData line => ⟨i, i, i, e.payloadWords, e.sendLines, line⟩
  | .loadWord _ => ⟨i, i, i, e.payloadWords, e.sendLines, e.receiveLines⟩
  | .readFinish | .storeRoundTrip | .storeSend => ⟨i, i, i, e.payloadWords, e.sendLines, 0⟩
  | .flushSamples _ | .retireData _ | .retireFlag | .storeHeader _ | .flushHeader _ | .returned =>
    if i ≤ e.iterations then ⟨i, i - 1, i, e.payloadWords, e.sendLines, 0⟩
    else ⟨i - 1, i - 1, i - 1, e.payloadWords, e.sendLines, 0⟩

/-- The pong side waits for a message, and raises its flag once the reply is stored. -/
def pongAccount (e : Endpoint) (i : ℕ) : At → Account
  | .evictData line => ⟨i - 1, i, i - 1, e.payloadWords, e.sendLines, line⟩
  | .loadWord index | .storeWord index => ⟨i - 1, i, i, index, 0, e.receiveLines⟩
  | .flushData line => ⟨i - 1, i, i, e.payloadWords, line, 0⟩
  | .storeFlag => ⟨i - 1, i, i, e.payloadWords, e.sendLines, 0⟩
  | .flushFlag => ⟨i, i, i, e.payloadWords, e.sendLines, 0⟩
  | _ => ⟨i - 1, i - 1, i - 1, e.payloadWords, e.sendLines, 0⟩

def account (e : Endpoint) (t : Thread) : Account :=
  match e.role with
  | .ping => e.pingAccount t.iteration t.next
  | .pong => e.pongAccount t.iteration t.next

end Endpoint

namespace Account

/-- It is the Minion's turn: the other one waits for its flag. -/
def Awake (r : Role) (a : Account) : Prop :=
  match r with
  | .ping => a.heard = a.flagged
  | .pong => a.heard = a.flagged + 1

def Waiting (r : Role) (a : Account) : Prop :=
  match r with
  | .ping => a.flagged = a.heard + 1
  | .pong => a.flagged = a.heard

/-- The message in the send area is the one that the flag was raised for, unless the Minion puts
the next one together. -/
structure Ordered (e : Endpoint) (a : Account) : Prop where
  turn : a.Awake e.role ∨ a.Waiting e.role
  sent : a.message = a.flagged ∧ a.stored = e.payloadWords ∧ a.flushed = e.sendLines ∨
    a.message = a.flagged + 1 ∧ a.Awake e.role
  read : 0 < a.evicted → a.Awake e.role ∧ 1 ≤ a.heard
  bound : a.flagged ≤ e.iterations

/-- What an account says less than another. -/
structure Weaker (a' a : Account) : Prop where
  flagged : a'.flagged = a.flagged
  heard : a'.heard = a.heard
  sent : a'.message = a.message ∧ a'.stored = a.stored ∧ a'.flushed = a.flushed ∨ a'.stored = 0
  evicted : a'.evicted = a.evicted ∨ a'.evicted = 0

theorem Weaker.rfl {a : Account} : a.Weaker a := by
  constructor <;> simp

end Account

namespace Endpoint

variable {i : ℕ}

theorem pingAccount_toFlush {line : ℕ} (hle : line ≤ e.sendLines) :
    e.pingAccount i (e.toFlush line) = ⟨i - 1, i - 1, i, e.payloadWords, line, 0⟩ := by
  rw [toFlush]
  split
  · rfl
  · have heq : line = e.sendLines := Nat.le_antisymm hle (Nat.le_of_not_lt (by assumption))
    rw [heq]
    rfl

theorem pingAccount_toStore {index : ℕ} (hle : index ≤ e.payloadWords) :
    e.pingAccount i (e.toStore index) = ⟨i - 1, i - 1, i, index, 0, 0⟩ := by
  rw [toStore]
  split
  · rfl
  · have heq : index = e.payloadWords := by omega
    rw [heq]
    exact pingAccount_toFlush (Nat.zero_le _)

theorem pingAccount_toLoad (hrole : e.role = .ping) (index : ℕ) :
    (e.pingAccount i (e.toLoad index)).Weaker
      ⟨i, i, i, e.payloadWords, e.sendLines, e.receiveLines⟩ := by
  rw [toLoad, hrole]
  split
  · exact .rfl
  · constructor <;> simp [pingAccount]

theorem pingAccount_toEvict (hrole : e.role = .ping) {line : ℕ} (hle : line ≤ e.receiveLines) :
    (e.pingAccount i (e.toEvict line)).Weaker
      ⟨i, i, i, e.payloadWords, e.sendLines, line⟩ := by
  rw [toEvict]
  split
  · exact .rfl
  · have heq : line = e.receiveLines := Nat.le_antisymm hle (Nat.le_of_not_lt (by assumption))
    rw [heq]
    exact pingAccount_toLoad hrole 0

theorem pongAccount_toFlush {line : ℕ} (hle : line ≤ e.sendLines) :
    e.pongAccount i (e.toFlush line) = ⟨i - 1, i, i, e.payloadWords, line, 0⟩ := by
  rw [toFlush]
  split
  · rfl
  · have heq : line = e.sendLines := Nat.le_antisymm hle (Nat.le_of_not_lt (by assumption))
    rw [heq]
    rfl

theorem pongAccount_toLoad (hrole : e.role = .pong) {index : ℕ} (hle : index ≤ e.payloadWords) :
    (e.pongAccount i (e.toLoad index)).Weaker ⟨i - 1, i, i, index, 0, e.receiveLines⟩ := by
  rw [toLoad, hrole]
  split
  · exact .rfl
  · have heq : index = e.payloadWords := by omega
    dsimp only
    rw [pongAccount_toFlush (Nat.zero_le _), heq]
    constructor <;> simp

theorem pongAccount_toEvict (hrole : e.role = .pong) {line : ℕ} (hle : line ≤ e.receiveLines) :
    (e.pongAccount i (e.toEvict line)).Weaker
      ⟨i - 1, i, i - 1, e.payloadWords, e.sendLines, line⟩ := by
  rw [toEvict]
  split
  · exact .rfl
  · have hload := pongAccount_toLoad (i := i) hrole (Nat.zero_le e.payloadWords)
    refine ⟨hload.flagged, hload.heard, .inr ?_, ?_⟩
    · rcases hload.sent with ⟨-, hstored, -⟩ | hstored <;> exact hstored
    · have heq : line = e.receiveLines := Nat.le_antisymm hle (Nat.le_of_not_lt (by assumption))
      rw [heq]
      exact hload.evicted

theorem pingAccount_of_ending {next : At} (h : next.ending = true) :
    e.pingAccount i next =
      if i ≤ e.iterations then ⟨i, i - 1, i, e.payloadWords, e.sendLines, 0⟩
      else ⟨i - 1, i - 1, i - 1, e.payloadWords, e.sendLines, 0⟩ := by
  cases next <;> first | rfl | simp [At.ending] at h

theorem pongAccount_of_ending {next : At} (h : next.ending = true) :
    e.pongAccount i next = ⟨i - 1, i - 1, i - 1, e.payloadWords, e.sendLines, 0⟩ := by
  cases next <;> first | rfl | simp [At.ending] at h

/-- At the head of the loop all earlier messages are dealt with. -/
theorem account_loop (e : Endpoint) (t : Thread) : (e.account (e.loop t)).Weaker
    ⟨t.iteration - 1, t.iteration - 1, t.iteration - 1, e.payloadWords, e.sendLines, 0⟩ := by
  rw [loop]
  split
  · cases hrole : e.role <;> constructor <;> simp [account, hrole, pingAccount, pongAccount]
  · have hlast : ¬t.iteration ≤ e.iterations := by assumption
    cases hrole : e.role <;>
      simp [account, hrole, pingAccount_of_ending, pongAccount_of_ending, ending_toSamples, hlast,
        Account.Weaker.rfl]

theorem account_complete (e : Endpoint) (t : Thread) : (e.account (e.complete t)).Weaker
    ⟨t.iteration, t.iteration, t.iteration, e.payloadWords, e.sendLines, 0⟩ :=
  account_loop e _

end Endpoint

theorem Endpoint.pingAccount_ordered {i : ℕ} {next : At} (hrole : e.role = .ping) (hfirst : 1 ≤ i)
    (hlast : i ≤ e.iterations + 1) (hgoing : next.ending = false → i ≤ e.iterations) :
    (e.pingAccount i next).Ordered e := by
  by_cases hle : i ≤ e.iterations <;> cases next <;> constructor <;>
    simp [pingAccount, Account.Awake, Account.Waiting, At.ending, hrole, hle] at hgoing ⊢ <;> omega

theorem Endpoint.pongAccount_ordered {i : ℕ} {next : At} (hrole : e.role = .pong) (hfirst : 1 ≤ i)
    (hlast : i ≤ e.iterations + 1) (hgoing : next.ending = false → i ≤ e.iterations) :
    (e.pongAccount i next).Ordered e := by
  cases next <;> constructor <;>
    simp [pongAccount, Account.Awake, Account.Waiting, At.ending, hrole] at hgoing ⊢ <;> omega

theorem Staying.ordered (h : Staying e t) : (e.account t).Ordered e := by
  rw [Endpoint.account]
  cases hrole : e.role with
  | ping =>
    exact Endpoint.pingAccount_ordered hrole h.first h.last h.going
  | pong =>
    exact Endpoint.pongAccount_ordered hrole h.first h.last h.going

/-! ## What a step does -/

namespace Endpoint

/-- Word `index` of message `number` in the send area. -/
def word (e : Endpoint) (number index : ℕ) : UInt64 :=
  match e.role with
  | .ping => payloadWord e.epoch number index
  | .pong => ~~~payloadWord e.epoch number index

/-- The words that a Minion reports its measurements and its outcome in. -/
def Reports (e : Endpoint) (addr : ℕ) : Prop :=
  (∃ k < e.iterations * sampleWords, e.role = .ping ∧ addr = e.samples + wordBytes * k) ∨
  ∃ k < 5, addr = e.header + wordBytes * k

/-- What an access that gives `v` adds to the account. -/
inductive Act (e : Endpoint) (v : UInt64) (a : Account) : Access → Account → Prop
  | report (access : Access)
      (hstore : ∀ addr value, access = .store addr value → e.Reports addr) : Act e v a access a
  | word (index : ℕ) (hindex : index < e.payloadWords) (hstored : a.stored = index)
      (hflushed : a.flushed = 0) (hawake : a.Awake e.role) :
      Act e v a (.store (e.sendData + wordBytes * index) (e.word a.message index))
        { a with stored := index + 1, flushed := 0 }
  | line (number : ℕ) (hnumber : number < e.sendLines) (hflushed : a.flushed = number) :
      Act e v a
        (.flush e.writebackDestination ((e.dataFlushes e.writebackDestination).getD number 0))
        { a with flushed := number + 1 }
  | post (hmessage : a.message = a.flagged + 1) (hstored : a.stored = e.payloadWords)
      (hflushed : a.flushed = e.sendLines) :
      Act e v a (.store e.sendFlag (e.flagValue (a.flagged + 1)))
        { a with flagged := a.flagged + 1 }
  | hear (hlt : a.heard < e.iterations) (hv : v = e.flagValue (a.heard + 1)) :
      Act e v a (.load e.receiveFlag) { a with heard := a.heard + 1, evicted := 0 }
  | evict (number : ℕ) (hnumber : number < e.receiveLines) (hevicted : a.evicted = number)
      (hawake : a.Awake e.role) (hheard : 1 ≤ a.heard) :
      Act e v a (.evict e.invalidateDestination (e.dataEvicts.getD number 0))
        { a with evicted := number + 1 }

/-- A step acts on the account, and what it leaves may be less than what it has earned. -/
def Steps (e : Endpoint) (v : UInt64) (a : Account) (access : Access) (a' : Account) : Prop :=
  ∃ b, e.Act v a access b ∧ a'.Weaker b

theorem Steps.report {a a' : Account} {access : Access} (hweaker : a'.Weaker a)
    (hstore : ∀ addr value, access = .store addr value → e.Reports addr) :
    e.Steps v a access a' :=
  ⟨a, .report access hstore, hweaker⟩

theorem account_ping (hrole : e.role = .ping) (t : Thread) :
    e.account t = e.pingAccount t.iteration t.next := by
  rw [account, hrole]

theorem account_pong (hrole : e.role = .pong) (t : Thread) :
    e.account t = e.pongAccount t.iteration t.next := by
  rw [account, hrole]

theorem reports_sample (hrole : e.role = .ping) {i k : ℕ} (hfirst : 1 ≤ i) (hle : i ≤ e.iterations)
    (hk : k < sampleWords) : e.Reports (e.sample i + wordBytes * k) := by
  refine .inl ⟨(i - 1) * sampleWords + k, ?_, hrole, ?_⟩
  · simp only [sampleWords] at *
    omega
  · simp only [sample, sampleWords, wordBytes]
    omega

theorem ping_steps (h : ThreadOk e t) (hrole : e.role = .ping) :
    e.Steps v (e.account t) (e.access t) (e.account (e.resume t v)) := by
  have hwithin := h.within
  obtain ⟨i, hi⟩ := Nat.exists_eq_add_of_le' h.first
  have hgoing : t.next.ending = false → i + 1 ≤ e.iterations := fun hend => hi ▸ h.going hend
  cases hnext : t.next <;> rw [hnext] at hwithin hgoing <;>
    simp only [access, resume, account_ping hrole, hnext, hrole, hi]
  case readStart =>
    refine .report ?_ (by simp)
    rw [pingAccount_toStore (Nat.zero_le _)]
    exact .rfl
  case storeWord index =>
    rw [pingAccount_toStore hwithin, show payloadWord e.epoch (i + 1) index =
      e.word (i + 1) index by rw [word, hrole]]
    refine ⟨_, .word index hwithin rfl rfl ?_, .rfl⟩
    rw [hrole]
    rfl
  case flushData line =>
    rw [pingAccount_toFlush hwithin]
    exact ⟨_, .line line hwithin rfl, .rfl⟩
  case storeFlag => exact ⟨_, .post rfl rfl rfl, .rfl⟩
  case flushFlag => exact .report .rfl (by simp)
  case readSent => exact .report .rfl (by simp)
  case readWait => exact .report .rfl (by simp)
  case evictFlag => exact .report .rfl (by simp)
  case loadFlag =>
    split
    · exact ⟨_, .hear (hgoing rfl) (by assumption),
        pingAccount_toEvict hrole (Nat.zero_le _)⟩
    · exact .report .rfl (by simp)
  case readClock =>
    split
    · refine .report ?_ (by simp)
      rw [giveUp, pingAccount_of_ending (ending_toSamples 0), hi, if_pos (hgoing rfl)]
      exact .rfl
    · exact .report .rfl (by simp)
  case evictData line =>
    refine ⟨_, .evict line hwithin rfl ?_ (Nat.succ_pos i), pingAccount_toEvict hrole hwithin⟩
    rw [hrole]
    rfl
  case loadWord index =>
    simp only [check, hrole, hi]
    exact .report (pingAccount_toLoad hrole _) (by simp)
  case readFinish => exact .report .rfl (by simp)
  case storeRoundTrip =>
    refine .report .rfl fun addr value heq => ?_
    cases heq
    exact reports_sample (k := 0) hrole (Nat.succ_pos i) (hgoing rfl) (by decide)
  case storeSend =>
    refine .report ?_ fun addr value heq => ?_
    · have hcomplete := account_complete e t
      rw [hi, account_ping hrole] at hcomplete
      exact hcomplete
    · cases heq
      exact reports_sample (k := 1) hrole (Nat.succ_pos i) (hgoing rfl) (by decide)
  case flushSamples line =>
    rw [pingAccount_of_ending (ending_toSamples _)]
    exact .report .rfl (by simp)
  case retireData line =>
    rw [pingAccount_of_ending (ending_toRetire _)]
    exact .report .rfl (by simp)
  case retireFlag => exact .report .rfl (by simp)
  case storeHeader word =>
    refine .report ?_ fun addr value heq => ?_
    · split
      · exact .rfl
      · rw [pingAccount_of_ending (ending_toHeader 0)]
        exact .rfl
    · cases heq
      exact .inr ⟨word, hwithin, rfl⟩
  case flushHeader line =>
    rw [pingAccount_of_ending (ending_toHeader _)]
    exact .report .rfl (by simp)
  case returned => exact .report .rfl (by simp)

theorem pong_steps (h : ThreadOk e t) (hrole : e.role = .pong) :
    e.Steps v (e.account t) (e.access t) (e.account (e.resume t v)) := by
  have hwithin := h.within
  obtain ⟨i, hi⟩ := Nat.exists_eq_add_of_le' h.first
  have hgoing : t.next.ending = false → i + 1 ≤ e.iterations := fun hend => hi ▸ h.going hend
  cases hnext : t.next <;> rw [hnext] at hwithin hgoing <;>
    simp only [access, resume, account_pong hrole, hnext, hrole, hi]
  case readStart | readSent | readFinish | storeRoundTrip | storeSend =>
    exact absurd (hwithin.symm.trans hrole) (by decide)
  case storeWord index =>
    have hword : ~~~t.value = e.word (i + 1) index := by
      simp only [h.answer index hnext hrole, hi, expected, word, hrole]
    rw [hword]
    refine ⟨_, .word index hwithin rfl rfl ?_, pongAccount_toLoad hrole hwithin⟩
    rw [hrole]
    rfl
  case flushData line =>
    rw [pongAccount_toFlush hwithin]
    exact ⟨_, .line line hwithin rfl, .rfl⟩
  case storeFlag => exact ⟨_, .post rfl rfl rfl, .rfl⟩
  case flushFlag =>
    refine .report ?_ (by simp)
    have hcomplete := account_complete e t
    rw [hi, account_pong hrole] at hcomplete
    exact hcomplete
  case readWait => exact .report .rfl (by simp)
  case evictFlag => exact .report .rfl (by simp)
  case loadFlag =>
    split
    · exact ⟨_, .hear (hgoing rfl) (by assumption),
        pongAccount_toEvict hrole (Nat.zero_le _)⟩
    · exact .report .rfl (by simp)
  case readClock =>
    split
    · refine .report ?_ (by simp)
      rw [giveUp, pongAccount_of_ending (ending_toSamples 0), hi]
      exact .rfl
    · exact .report .rfl (by simp)
  case evictData line =>
    refine ⟨_, .evict line hwithin rfl ?_ (Nat.succ_pos i), pongAccount_toEvict hrole hwithin⟩
    rw [hrole]
    rfl
  case loadWord index =>
    simp only [check, hrole, hi]
    exact .report .rfl (by simp)
  case flushSamples line =>
    rw [pongAccount_of_ending (ending_toSamples _)]
    exact .report .rfl (by simp)
  case retireData line =>
    rw [pongAccount_of_ending (ending_toRetire _)]
    exact .report .rfl (by simp)
  case retireFlag => exact .report .rfl (by simp)
  case storeHeader word =>
    refine .report ?_ fun addr value heq => ?_
    · split
      · exact .rfl
      · rw [pongAccount_of_ending (ending_toHeader 0)]
        exact .rfl
    · cases heq
      exact .inr ⟨word, hwithin, rfl⟩
  case flushHeader line =>
    rw [pongAccount_of_ending (ending_toHeader _)]
    exact .report .rfl (by simp)
  case returned => exact .report .rfl (by simp)

theorem steps (h : ThreadOk e t) (v : UInt64) :
    e.Steps v (e.account t) (e.access t) (e.account (e.resume t v)) := by
  cases hrole : e.role with
  | ping => exact ping_steps h hrole
  | pong => exact pong_steps h hrole

/-! ## Lines that may be dirty -/

/-- The lines that the writes back to the memory have still to come to, from number `first` on. -/
def InSamples (e : Endpoint) (first line : ℕ) : Prop := line ∈ e.sampleFlushes.drop first

def InData (e : Endpoint) (first line : ℕ) : Prop := line ∈ (e.dataFlushes .mem).drop first

def InHeader (e : Endpoint) (first line : ℕ) : Prop := line ∈ e.headerFlushes.drop first

/-- The lines of the Minion that may still be dirty. -/
def Unflushed (e : Endpoint) (next : At) (line : ℕ) : Prop :=
  match next with
  | .flushSamples number => e.InSamples number line ∨ e.InData 0 line ∨ line = e.flagFlush .mem
  | .retireData number => e.InData number line ∨ line = e.flagFlush .mem
  | .retireFlag => line = e.flagFlush .mem
  | .storeHeader _ => e.InHeader 0 line
  | .flushHeader number => e.InHeader number line
  | .returned => False
  | _ => e.InSamples 0 line ∨ e.InData 0 line ∨ line = e.flagFlush .mem

variable {line : ℕ}

theorem unflushed_toRetire (number : ℕ) :
    e.Unflushed (e.toRetire number) line ↔
      e.InData number line ∨ line = e.flagFlush .mem := by
  rw [toRetire]
  split
  · exact Iff.rfl
  · have hnone : (e.dataFlushes .mem).drop number = [] := List.drop_eq_nil_of_le (by omega)
    simp [Unflushed, InData, hnone]

theorem unflushed_toSamples (number : ℕ) :
    e.Unflushed (e.toSamples number) line ↔
      e.InSamples number line ∨ e.InData 0 line ∨ line = e.flagFlush .mem := by
  rw [toSamples]
  split
  · exact Iff.rfl
  · have hnone : e.sampleFlushes.drop number = [] := List.drop_eq_nil_of_le (by omega)
    simp [unflushed_toRetire, InSamples, hnone]

theorem unflushed_toHeader (number : ℕ) :
    e.Unflushed (e.toHeader number) line ↔ e.InHeader number line := by
  rw [toHeader]
  split
  · exact Iff.rfl
  · have hnone : e.headerFlushes.drop number = [] := List.drop_eq_nil_of_le (by omega)
    simp [Unflushed, InHeader, hnone]

theorem unflushed_of_going {next : At} (h : next.ending = false) :
    e.Unflushed next line ↔
      e.InSamples 0 line ∨ e.InData 0 line ∨ line = e.flagFlush .mem := by
  cases next <;> first | exact Iff.rfl | simp [At.ending] at h

theorem mem_drop_succ {lines : List ℕ} {number : ℕ} (h : line ∈ lines.drop number) :
    line ∈ lines.drop (number + 1) ∨ line = lines.getD number 0 := by
  have hlt : number < lines.length := by
    by_contra hle
    rw [List.drop_eq_nil_of_le (by omega)] at h
    cases h
  rw [List.drop_eq_getElem_cons hlt, List.mem_cons] at h
  rw [List.getD_eq_getElem?_getD, List.getElem?_eq_getElem hlt, Option.getD_some]
  exact h.symm

theorem InSamples.succ {number : ℕ} (h : e.InSamples number line) :
    e.InSamples (number + 1) line ∨ line = e.sampleFlushes.getD number 0 :=
  mem_drop_succ h

theorem InData.succ {number : ℕ} (h : e.InData number line) :
    e.InData (number + 1) line ∨ line = (e.dataFlushes .mem).getD number 0 :=
  mem_drop_succ h

theorem InHeader.succ {number : ℕ} (h : e.InHeader number line) :
    e.InHeader (number + 1) line ∨ line = e.headerFlushes.getD number 0 :=
  mem_drop_succ h

theorem next_complete (h : (e.complete t).next.ending = true) :
    (e.complete t).next = e.toSamples 0 := by
  rw [complete, loop] at h ⊢
  split at h
  · cases hrole : e.role <;> simp [hrole, At.ending] at h
  · rw [if_neg (by assumption)]

/-- The loop is left in one place. -/
theorem next_of_ending (h : t.next.ending = false) (hending : (e.resume t v).next.ending = true) :
    (e.resume t v).next = e.toSamples 0 := by
  cases hnext : t.next <;> simp only [resume, hnext] at h hending ⊢
  case flushFlag =>
    cases hrole : e.role <;> simp only [hrole] at hending ⊢
    · cases hending
    · exact next_complete hending
  case storeSend => exact next_complete hending
  case readClock =>
    split at hending
    · rw [if_pos (by assumption), giveUp]
    · cases hending
  case readStart => simp only [ending_toStore, Bool.false_eq_true] at hending
  case storeWord =>
    cases hrole : e.role <;>
      simp only [hrole, ending_toStore, ending_toLoad, Bool.false_eq_true] at hending
  case flushData => simp only [ending_toFlush, Bool.false_eq_true] at hending
  case loadFlag =>
    split at hending
    · simp only [ending_toEvict, Bool.false_eq_true] at hending
    · cases hending
  case evictData => simp only [ending_toEvict, Bool.false_eq_true] at hending
  case loadWord =>
    cases hrole : e.role <;> simp only [check, hrole] at hending
    · simp only [ending_toLoad, Bool.false_eq_true] at hending
    · cases hending
  case storeFlag | readSent | readWait | evictFlag | readFinish | storeRoundTrip => cases hending
  all_goals cases h

/-- The lines of the loop stay unflushed until its end. -/
theorem unflushed_resume_of_going (h : t.next.ending = false) :
    e.Unflushed (e.resume t v).next line ↔
      e.InSamples 0 line ∨ e.InData 0 line ∨ line = e.flagFlush .mem := by
  by_cases hending : (e.resume t v).next.ending = false
  · exact unflushed_of_going hending
  · rw [next_of_ending h (by simpa using hending), unflushed_toSamples]

/-- A line that a step takes from those that may be dirty is written back by it. -/
theorem Unflushed.resume (h : e.Unflushed t.next line) :
    e.Unflushed (e.resume t v).next line ∨ e.access t = .flush .mem line := by
  cases hending : t.next.ending with
  | false => exact .inl ((unflushed_resume_of_going hending).2 ((unflushed_of_going hending).1 h))
  | true =>
    cases hnext : t.next <;> rw [hnext] at h hending <;> simp only [Endpoint.resume, access, hnext]
    case flushSamples number =>
      rw [unflushed_toSamples]
      rcases h with h | h
      · rcases h.succ with h | rfl
        · exact .inl (.inl h)
        · exact .inr rfl
      · exact .inl (.inr h)
    case retireData number =>
      rw [unflushed_toRetire]
      rcases h with h | h
      · rcases h.succ with h | rfl
        · exact .inl (.inl h)
        · exact .inr rfl
      · exact .inl (.inr h)
    case retireFlag =>
      cases h
      exact .inr rfl
    case storeHeader word =>
      refine .inl ?_
      split
      · exact h
      · exact (unflushed_toHeader 0).2 h
    case flushHeader number =>
      rw [unflushed_toHeader]
      rcases h.succ with h | rfl
      · exact .inl h
      · exact .inr rfl
    case returned => exact absurd h (by simp [Unflushed])
    all_goals simp [At.ending] at hending

/-! ## The header -/

/-- The number of words of the header that are stored. -/
def reported (next : At) : ℕ :=
  match next with
  | .storeHeader word => word
  | .flushHeader _ | .returned => 5
  | _ => 0

theorem reported_of_going {next : At} (h : next.ending = false) : reported next = 0 := by
  cases next <;> first | rfl | cases h

theorem reported_toRetire (number : ℕ) : reported (e.toRetire number) = 0 := by
  rw [toRetire]
  split <;> rfl

theorem reported_toSamples (number : ℕ) : reported (e.toSamples number) = 0 := by
  rw [toSamples]
  split
  · rfl
  · exact reported_toRetire 0

theorem reported_toHeader (number : ℕ) : reported (e.toHeader number) = 5 := by
  rw [toHeader]
  split <;> rfl

/-- What a step does to the header. -/
inductive Heads (e : Endpoint) (t : Thread) (v : UInt64) : Prop
  | nothing (hnone : reported (e.resume t v).next = 0)
  | word (number : ℕ) (hnumber : number < 5) (hnext : t.next = .storeHeader number)
      (hreported : reported (e.resume t v).next = number + 1)
  | rest (hreported : reported t.next = 5) (houtcome : (e.resume t v).outcome = t.outcome)
      (hnone : ∀ addr value, e.access t ≠ .store addr value)

theorem heads (h : Staying e t) (v : UInt64) : e.Heads t v := by
  have hwithin := h.within
  cases hending : t.next.ending with
  | false =>
    refine .nothing ?_
    cases hending' : (e.resume t v).next.ending with
    | false => exact reported_of_going hending'
    | true =>
      rw [next_of_ending hending hending']
      exact reported_toSamples 0
  | true =>
    cases hnext : t.next <;> rw [hnext] at hending hwithin
    case flushSamples => exact .nothing (by simp only [resume, hnext, reported_toSamples])
    case retireData => exact .nothing (by simp only [resume, hnext, reported_toRetire])
    case retireFlag => exact .nothing (by simp only [resume, hnext, reported])
    case storeHeader word =>
      simp only [Within] at hwithin
      refine .word word hwithin hnext ?_
      simp only [resume, hnext]
      split
      · rfl
      · rw [reported_toHeader]
        omega
    case flushHeader line =>
      exact .rest (by rw [hnext]; rfl) (by simp only [resume, hnext]) (by simp [access, hnext])
    case returned =>
      exact .rest (by rw [hnext]; rfl) (by simp only [resume, hnext]) (by simp [access, hnext])
    all_goals cases hending

end Endpoint

end EtSoc.Channel
