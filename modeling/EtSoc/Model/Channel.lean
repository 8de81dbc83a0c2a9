import EtSoc.Library.WriteBackCache
import EtSoc.Model.CacheOps
import Mathlib.Algebra.Group.Nat.Defs
import Mathlib.Logic.Function.Basic

/-! # The channel between two Minions

A kernel in which a Minion sends messages and another answers each of them, through device
memory that their caches do not keep coherent. A cache operation works on the caches before its
destination; the host has only what is in the memory. Each step is one access, one line of a
cache operation or one reading of the cycle counter, with the local work up to the next one.
Addresses are natural numbers, as the areas do not reach the end of the address space. -/

namespace EtSoc.Channel

open WriteBackCache CacheOps

def wordBytes : ℕ := 8
def lineBytes : ℕ := 64
def minionsPerShire : UInt32 := 32
def maxIterations : UInt32 := (1 : UInt32) <<< 20
def payloadSalt : UInt64 := 0x9E3779B97F4A7C15

def forwardFlagOffset : ℕ := 0
def replyFlagOffset : ℕ := lineBytes
def forwardDataOffset : ℕ := 2 * lineBytes

def nextMultipleOf (n m : ℕ) : ℕ := (n + m - 1) / m * m

def replyDataOffset (messageBytes : ℕ) : ℕ :=
  forwardDataOffset + nextMultipleOf messageBytes lineBytes

def bufferBytes (messageBytes : ℕ) : ℕ :=
  replyDataOffset messageBytes + nextMultipleOf messageBytes lineBytes

def pingHeaderOffset : ℕ := 0
def pongHeaderOffset : ℕ := lineBytes
def samplesOffset : ℕ := 2 * lineBytes
def sampleWords : ℕ := 2

def resultsBytes (iterations : ℕ) : ℕ := samplesOffset + iterations * sampleWords * 8

def headerStatus : ℕ := 0
def headerErrors : ℕ := 1
def headerCompleted : ℕ := 2

def statusOk : UInt64 := 1
def statusTimeout : UInt64 := 2
def statusBadArguments : UInt64 := 3

/-! ## Caches -/

/-- The L1 data caches of the Minions of all shires, the L2 of each shire, and the L3. -/
inductive Cache where
  | l1 (minion : UInt32)
  | l2 (shire : UInt32)
  | l3
deriving DecidableEq, Repr

def Cache.outward : Cache → List Cache
  | .l1 minion => [.l2 (minion >>> 5), .l3]
  | .l2 _ => [.l3]
  | .l3 => []

def hierarchy : Hierarchy Cache where
  outward := Cache.outward
  tail c d rest h := by
    cases c with
    | l1 minion =>
      cases h
      rfl
    | l2 shire =>
      cases h
      rfl
    | l3 => cases h

/-- The cache that a hart loads from and stores to. -/
def core (hart : UInt32) : Cache := .l1 (hart >>> 1)

def path (hart : UInt32) : List Cache := core hart :: hierarchy.outward (core hart)

/-- The caches that a cache operation of a hart works on: those before the destination. -/
def before (dst : CacheDest) (hart : UInt32) : List Cache := (path hart).take dst.toU64.toNat

/-- The line of an address. -/
def lineOf (addr : ℕ) : ℕ := addr / lineBytes

abbrev Memory := System Cache ℕ ℕ UInt64

/-! ## What a Minion is given and gives back -/

/-- The arguments of a launch. -/
structure Args where
  buffer : UInt64
  results : UInt64
  messageBytes : UInt64
  timeoutCycles : UInt64
  pingShire : UInt32
  pingMinion : UInt32
  pongShire : UInt32
  pongMinion : UInt32
  writebackLevel : UInt32
  iterations : UInt32
  epoch : UInt32
  invalidateLevel : UInt32
deriving DecidableEq, Repr

/-- What a Minion writes to its header. -/
structure Outcome where
  status : UInt64
  errors : UInt64
  completed : UInt64
  failedIteration : UInt64
  lastFlag : UInt64
deriving DecidableEq, Repr

def Outcome.new (status : UInt64) : Outcome := ⟨status, 0, 0, 0, 0⟩

def Outcome.words (o : Outcome) : List UInt64 :=
  [o.status, o.errors, o.completed, o.failedIteration, o.lastFlag]

inductive Role where
  | ping
  | pong
deriving DecidableEq, Repr

def Role.other : Role → Role
  | .ping => .pong
  | .pong => .ping

/-- Both directions as a Minion sees them, and where it reports. -/
structure Endpoint where
  role : Role
  writebackDestination : CacheDest
  invalidateDestination : CacheDest
  sendFlag : ℕ
  sendData : ℕ
  receiveFlag : ℕ
  receiveData : ℕ
  payloadWords : ℕ
  epoch : UInt64
  timeoutCycles : UInt64
  iterations : ℕ
  header : ℕ
  samples : ℕ
deriving DecidableEq, Repr

def payloadWord (epoch : UInt64) (iteration index : ℕ) : UInt64 :=
  ((epoch <<< 40) ^^^ (UInt64.ofNat iteration <<< 20) ^^^ UInt64.ofNat index) ^^^ payloadSalt

namespace Endpoint

def flagValue (e : Endpoint) (iteration : ℕ) : UInt64 :=
  (e.epoch <<< 32) ||| UInt64.ofNat iteration

def payloadBytes (e : Endpoint) : ℕ := e.payloadWords * wordBytes

def sampleBytes (e : Endpoint) : ℕ := resultsBytes e.iterations - samplesOffset

/-! The lines of the cache operations, by the CSR writes of each. -/

@[irreducible] def flushes (dst : CacheDest) (addr len : ℕ) : List ℕ :=
  linesOf (doFlush dst (.ofNat addr) (.ofNat len))

@[irreducible] def evicts (dst : CacheDest) (addr len : ℕ) : List ℕ :=
  linesOf (doEvict dst (.ofNat addr) (.ofNat len))

def dataFlushes (e : Endpoint) (dst : CacheDest) : List ℕ :=
  flushes dst e.sendData e.payloadBytes

def dataEvicts (e : Endpoint) : List ℕ :=
  evicts e.invalidateDestination e.receiveData e.payloadBytes

/-- Only the ping side has samples. -/
def sampleFlushes (e : Endpoint) : List ℕ :=
  match e.role with
  | .ping => flushes .mem e.samples e.sampleBytes
  | .pong => []

def headerFlushes (e : Endpoint) : List ℕ := flushes .mem e.header lineBytes

/-- A flag is one line, as the buffer of accepted arguments starts a line. -/
def flagFlush (e : Endpoint) (dst : CacheDest) : ℕ := (flushes dst e.sendFlag lineBytes).headD 0

def flagEvict (e : Endpoint) : ℕ :=
  (evicts e.invalidateDestination e.receiveFlag lineBytes).headD 0

def sample (e : Endpoint) (iteration : ℕ) : ℕ :=
  e.samples + (iteration - 1) * sampleWords * wordBytes

end Endpoint

/-- What a Minion is about to do. -/
inductive At where
  | readStart
  | storeWord (index : ℕ)
  | flushData (line : ℕ)
  | storeFlag
  | flushFlag
  | readSent
  | readWait
  | evictFlag
  | loadFlag
  | readClock
  | evictData (line : ℕ)
  | loadWord (index : ℕ)
  | readFinish
  | storeRoundTrip
  | storeSend
  | flushSamples (line : ℕ)
  | retireData (line : ℕ)
  | retireFlag
  | storeHeader (word : ℕ)
  | flushHeader (line : ℕ)
  | returned
deriving DecidableEq, Repr

structure Thread where
  next : At
  iteration : ℕ
  outcome : Outcome
  start : UInt64
  sent : UInt64
  finish : UInt64
  /-- The start of the current wait. -/
  since : UInt64
  /-- The flag as it was read last. -/
  observed : UInt64
  /-- The payload word that was read last. -/
  value : UInt64
deriving DecidableEq, Repr

inductive Access where
  | load (addr : ℕ)
  | store (addr : ℕ) (value : UInt64)
  | flush (dst : CacheDest) (line : ℕ)
  | evict (dst : CacheDest) (line : ℕ)
  | clock
  | none
deriving DecidableEq, Repr

/-- The access that a Minion makes next. -/
def Endpoint.access (e : Endpoint) (t : Thread) : Access :=
  match t.next with
  | .readStart | .readSent | .readWait | .readClock | .readFinish => .clock
  | .storeWord index =>
    .store (e.sendData + wordBytes * index)
      (match e.role with
        | .ping => payloadWord e.epoch t.iteration index
        | .pong => ~~~t.value)
  | .flushData line =>
    .flush e.writebackDestination ((e.dataFlushes e.writebackDestination).getD line 0)
  | .storeFlag => .store e.sendFlag (e.flagValue t.iteration)
  | .flushFlag => .flush e.writebackDestination (e.flagFlush e.writebackDestination)
  | .evictFlag => .evict e.invalidateDestination e.flagEvict
  | .loadFlag => .load e.receiveFlag
  | .evictData line => .evict e.invalidateDestination (e.dataEvicts.getD line 0)
  | .loadWord index => .load (e.receiveData + wordBytes * index)
  | .storeRoundTrip => .store (e.sample t.iteration) (t.finish - t.start)
  | .storeSend => .store (e.sample t.iteration + wordBytes) (t.sent - t.start)
  | .flushSamples line => .flush .mem (e.sampleFlushes.getD line 0)
  | .retireData line => .flush .mem ((e.dataFlushes .mem).getD line 0)
  | .retireFlag => .flush .mem (e.flagFlush .mem)
  | .storeHeader word => .store (e.header + wordBytes * word) (t.outcome.words.getD word 0)
  | .flushHeader line => .flush .mem (e.headerFlushes.getD line 0)
  | .returned => .none

namespace Endpoint

/-! ## Where the loops go on -/

def toFlush (e : Endpoint) (line : ℕ) : At :=
  if line < (e.dataFlushes e.writebackDestination).length then .flushData line else .storeFlag

/-- The loop of the ping side over the words that it sends. -/
def toStore (e : Endpoint) (index : ℕ) : At :=
  if index < e.payloadWords then .storeWord index else e.toFlush 0

/-- The loop over the words received; the pong side publishes its reply at the end. -/
def toLoad (e : Endpoint) (index : ℕ) : At :=
  if index < e.payloadWords then .loadWord index
  else match e.role with
    | .ping => .readFinish
    | .pong => e.toFlush 0

def toEvict (e : Endpoint) (line : ℕ) : At :=
  if line < e.dataEvicts.length then .evictData line else e.toLoad 0

def toRetire (e : Endpoint) (line : ℕ) : At :=
  if line < (e.dataFlushes .mem).length then .retireData line else .retireFlag

def toSamples (e : Endpoint) (line : ℕ) : At :=
  if line < e.sampleFlushes.length then .flushSamples line else e.toRetire 0

def toHeader (e : Endpoint) (line : ℕ) : At :=
  if line < e.headerFlushes.length then .flushHeader line else .returned

/-- The head of the loop over the iterations. -/
def loop (e : Endpoint) (t : Thread) : Thread :=
  if t.iteration ≤ e.iterations then
    { t with next := match e.role with
      | .ping => .readStart
      | .pong => .readWait }
  else
    { t with next := e.toSamples 0 }

/-- The end of an iteration. -/
def complete (e : Endpoint) (t : Thread) : Thread :=
  e.loop { t with
    outcome := { t.outcome with completed := .ofNat t.iteration }, iteration := t.iteration + 1 }

/-- The end of a wait without success. -/
def giveUp (e : Endpoint) (t : Thread) : Thread :=
  { t with
    next := e.toSamples 0
    outcome := { t.outcome with
      status := statusTimeout, failedIteration := .ofNat t.iteration, lastFlag := t.observed } }

/-- The word that must arrive. -/
def expected (e : Endpoint) (iteration index : ℕ) : UInt64 :=
  match e.role with
  | .ping => ~~~payloadWord e.epoch iteration index
  | .pong => payloadWord e.epoch iteration index

/-- A word received. -/
def check (e : Endpoint) (index : ℕ) (v : UInt64) (t : Thread) : Thread :=
  { t with
    next := match e.role with
      | .ping => e.toLoad (index + 1)
      | .pong => .storeWord index
    value := v
    outcome := { t.outcome with
      errors := if v ≠ e.expected t.iteration index then t.outcome.errors + 1
        else t.outcome.errors } }

def saturatingSub (a b : UInt64) : UInt64 := if b ≤ a then a - b else 0

/-- What follows an access that gave `v`. -/
def resume (e : Endpoint) (t : Thread) (v : UInt64) : Thread :=
  match t.next with
  | .readStart => { t with next := e.toStore 0, start := v }
  | .storeWord index =>
    { t with next := match e.role with
      | .ping => e.toStore (index + 1)
      | .pong => e.toLoad (index + 1) }
  | .flushData line => { t with next := e.toFlush (line + 1) }
  | .storeFlag => { t with next := .flushFlag }
  | .flushFlag =>
    match e.role with
    | .ping => { t with next := .readSent }
    | .pong => e.complete t
  | .readSent => { t with next := .readWait, sent := v }
  | .readWait => { t with next := .evictFlag, since := v }
  | .evictFlag => { t with next := .loadFlag }
  | .loadFlag =>
    if v = e.flagValue t.iteration then { t with next := e.toEvict 0, observed := v }
    else { t with next := .readClock, observed := v }
  | .readClock =>
    if e.timeoutCycles < saturatingSub v t.since then e.giveUp t
    else { t with next := .evictFlag }
  | .evictData line => { t with next := e.toEvict (line + 1) }
  | .loadWord index => e.check index v t
  | .readFinish => { t with next := .storeRoundTrip, finish := v }
  | .storeRoundTrip => { t with next := .storeSend }
  | .storeSend => e.complete t
  | .flushSamples line => { t with next := e.toSamples (line + 1) }
  | .retireData line => { t with next := e.toRetire (line + 1) }
  | .retireFlag => { t with next := .storeHeader 0 }
  | .storeHeader word =>
    { t with next := if word < 4 then .storeHeader (word + 1) else e.toHeader 0 }
  | .flushHeader line => { t with next := e.toHeader (line + 1) }
  | .returned => t

end Endpoint

/-! ## The entry point -/

namespace Args

/-- A level is rejected if the two Minions share nothing there. -/
def destination (level : UInt32) (args : Args) : Option CacheDest :=
  if level = 1 ∧ args.pingShire = args.pongShire then some .l2
  else if level = 2 then some .l3
  else if level = 3 then some .mem
  else none

/-- The primary hart of a Minion. -/
def isMinion (shire minion hart : UInt32) : Prop :=
  hart &&& 1 = 0 ∧ hart >>> 6 = shire ∧ (hart &&& 63) >>> 1 = minion

instance (shire minion hart : UInt32) : Decidable (isMinion shire minion hart) :=
  inferInstanceAs (Decidable (_ ∧ _))

def isPing (args : Args) (hart : UInt32) : Prop := isMinion args.pingShire args.pingMinion hart
def isPong (args : Args) (hart : UInt32) : Prop := isMinion args.pongShire args.pongMinion hart

instance (args : Args) (hart : UInt32) : Decidable (args.isPing hart) :=
  inferInstanceAs (Decidable (isMinion _ _ _))
instance (args : Args) (hart : UInt32) : Decidable (args.isPong hart) :=
  inferInstanceAs (Decidable (isMinion _ _ _))

def role (args : Args) (hart : UInt32) : Option Role :=
  if args.isPing hart then some .ping else if args.isPong hart then some .pong else none

def validArguments (args : Args) (hart : UInt32) : Prop :=
  ¬(args.isPing hart ∧ args.isPong hart) ∧ args.pingMinion < minionsPerShire ∧
    args.pongMinion < minionsPerShire ∧ wordBytes ∣ args.messageBytes.toNat ∧
    args.iterations < maxIterations ∧ lineBytes ∣ args.buffer.toNat ∧
    lineBytes ∣ args.results.toNat

instance (args : Args) (hart : UInt32) : Decidable (args.validArguments hart) :=
  inferInstanceAs (Decidable (_ ∧ _))

def header (args : Args) (r : Role) : ℕ :=
  args.results.toNat + match r with
    | .ping => pingHeaderOffset
    | .pong => pongHeaderOffset

def flag (args : Args) (r : Role) : ℕ :=
  args.buffer.toNat + match r with
    | .ping => forwardFlagOffset
    | .pong => replyFlagOffset

def data (args : Args) (r : Role) : ℕ :=
  args.buffer.toNat + match r with
    | .ping => forwardDataOffset
    | .pong => replyDataOffset args.messageBytes.toNat

/-- Rejected arguments, of which a level may be none, do not get to a write-back or an
invalidation to it. -/
def endpoint (args : Args) (r : Role) : Endpoint where
  role := r
  writebackDestination := (args.destination args.writebackLevel).getD .mem
  invalidateDestination := (args.destination args.invalidateLevel).getD .mem
  sendFlag := args.flag r
  sendData := args.data r
  receiveFlag := args.flag r.other
  receiveData := args.data r.other
  payloadWords := args.messageBytes.toNat / wordBytes
  epoch := args.epoch.toUInt64
  timeoutCycles := args.timeoutCycles
  iterations := args.iterations.toNat
  header := args.header r
  samples := args.results.toNat + samplesOffset

def begin (status : UInt64) : Thread := ⟨.returned, 1, .new status, 0, 0, 0, 0, 0, 0⟩

/-- A hart without a role returns at once, and one whose arguments are rejected says so. -/
def entryPoint (args : Args) (hart : UInt32) : Thread :=
  match args.role hart with
  | none => begin statusOk
  | some r =>
    if args.validArguments hart ∧ (args.destination args.writebackLevel).isSome ∧
        (args.destination args.invalidateLevel).isSome then
      (args.endpoint r).loop (begin statusOk)
    else
      { begin statusBadArguments with next := .storeHeader 0 }

end Args

/-! ## A launch -/

structure State where
  mem : Memory
  threads : UInt32 → Thread

def start (args : Args) (mem : Memory) : State := ⟨mem, args.entryPoint⟩

/-- A hart takes its next step, for which the cycle counter reads `clock`, or a cache does
something of its own accord. -/
inductive Event where
  | step (hart : UInt32) (clock : UInt64)
  | cache (cache : Cache) (line : ℕ) (move : Move)

/-- The effect of an access, and the value that it gives. -/
def perform (hart : UInt32) (clock : UInt64) (mem : Memory) : Access → UInt64 × Memory
  | .load addr => mem.load hierarchy lineOf (core hart) addr
  | .store addr value => (0, mem.store hierarchy lineOf (core hart) addr value)
  | .flush dst line => (0, mem.moveAll hierarchy lineOf (before dst hart) line .writeBack)
  | .evict dst line => (0, mem.moveAll hierarchy lineOf (before dst hart) line .evict)
  | .clock => (clock, mem)
  | .none => (0, mem)

def advance (e : Endpoint) (hart : UInt32) (clock : UInt64) (s : State) : State :=
  let t := s.threads hart
  let r := perform hart clock s.mem (e.access t)
  ⟨r.2, Function.update s.threads hart (e.resume t r.1)⟩

def happen (args : Args) (s : State) : Event → State
  | .step hart clock =>
    match args.role hart with
    | some r => advance (args.endpoint r) hart clock s
    | none => s
  | .cache cache line move => { s with mem := s.mem.move hierarchy lineOf cache line move }

/-- A launch in which the events happen in the given order. -/
def launch (args : Args) (events : List Event) (mem : Memory) : State :=
  events.foldl (happen args) (start args mem)

end EtSoc.Channel
