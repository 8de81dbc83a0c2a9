import Mathlib.Data.List.Basic

/-! # Write-back caches without coherence

Caches in levels, up to a memory that all of them share. A line that a party stores to is dirty in
the first cache of the party until it is written back to the next one, and so on to the memory.
Who loads a word gets the first copy on the way to the memory, however old it is. -/

namespace WriteBackCache

inductive LineState where
  | absent
  | clean
  | dirty
deriving DecidableEq, Repr

/-- The caches between a cache and the memory, the next one first. -/
structure Hierarchy (Cache : Type) where
  outward : Cache → List Cache
  tail : ∀ c d rest, outward c = d :: rest → outward d = rest

/-- The memory, and what each cache has of it. -/
structure System (Cache Addr Line Word : Type) where
  memory : Addr → Word
  state : Cache → Line → LineState
  copy : Cache → Addr → Word

/-- What a cache may do to a line at any time. -/
inductive Move where
  | fetch
  | writeBack
  | evict

variable {Cache Addr Line Word : Type}

/-! ## Paths to the memory -/

namespace Hierarchy

variable {H : Hierarchy Cache} {c d : Cache} {rest path inner outer : List Cache}

def next (H : Hierarchy Cache) (c : Cache) : Option Cache := (H.outward c).head?

def IsPath (H : Hierarchy Cache) : List Cache → Prop
  | [] => True
  | c :: rest => H.outward c = rest ∧ H.IsPath rest

theorem isPath_outward (c : Cache) : H.IsPath (H.outward c) := by
  generalize hrest : H.outward c = rest
  induction rest generalizing c with
  | nil => exact True.intro
  | cons d rest ih =>
    have hd := H.tail c d rest hrest
    exact ⟨hd, ih d hd⟩

theorem isPath_self (c : Cache) : H.IsPath (c :: H.outward c) := ⟨rfl, isPath_outward c⟩

theorem IsPath.of_append (h : H.IsPath (inner ++ outer)) : H.IsPath outer := by
  induction inner with
  | nil => exact h
  | cons c inner ih => exact ih h.2

theorem IsPath.mem_of_next (h : H.IsPath path) (hc : c ∈ path) (hd : H.next c = some d) :
    d ∈ path := by
  induction path with
  | nil => cases hc
  | cons e rest ih =>
    rcases List.mem_cons.1 hc with rfl | hc
    · rw [next, h.1] at hd
      exact List.mem_cons_of_mem _ (List.mem_of_mem_head? hd)
    · exact List.mem_cons_of_mem _ (ih h.2 hc)

theorem IsPath.length_lt (h : H.IsPath path) (hc : c ∈ path) :
    (H.outward c).length < path.length := by
  induction path with
  | nil => cases hc
  | cons e rest ih =>
    rcases List.mem_cons.1 hc with rfl | hc
    · rw [h.1, List.length_cons]
      exact Nat.lt_succ_self _
    · exact Nat.lt_succ_of_lt (ih h.2 hc)

/-- No cache comes again on its path. -/
theorem IsPath.notMem (h : H.IsPath (c :: rest)) : c ∉ rest := by
  intro hc
  have hlt := h.2.length_lt hc
  rw [h.1] at hlt
  exact Nat.lt_irrefl _ hlt

theorem IsPath.disjoint (h : H.IsPath (inner ++ outer)) (hc : c ∈ inner) : c ∉ outer := by
  induction inner with
  | nil => cases hc
  | cons d inner ih =>
    rcases List.mem_cons.1 hc with rfl | hc
    · exact fun houter => h.notMem (List.mem_append_right _ houter)
    · exact ih h.2 hc

theorem next_ne (h : H.next c = some d) : c ≠ d := by
  rintro rfl
  have hpath := isPath_self (H := H) c
  exact hpath.notMem (List.mem_of_mem_head? h)

end Hierarchy

namespace System

variable [DecidableEq Cache] [DecidableEq Addr] [DecidableEq Line]

def setState (s : System Cache Addr Line Word) (c : Cache) (l : Line) (x : LineState) :
    System Cache Addr Line Word :=
  { s with state := fun d m => if d = c ∧ m = l then x else s.state d m }

variable (H : Hierarchy Cache) (line : Addr → Line)

/-- The first copy of a word on a path. -/
def view (s : System Cache Addr Line Word) : List Cache → Addr → Word
  | [], a => s.memory a
  | c :: rest, a => if s.state c (line a) = .absent then s.view rest a else s.copy c a

/-- Fill a line with what is to be seen of it further out, unless it is there already. -/
def fetch (s : System Cache Addr Line Word) (c : Cache) (l : Line) :
    System Cache Addr Line Word :=
  if s.state c l = .absent then
    { s with copy := fun d a =>
        if d = c ∧ line a = l then s.view line (H.outward c) a else s.copy d a }.setState c l .clean
  else
    s

/-- Copy a line to the next cache, where it is dirty then, or to the memory, if it is dirty. -/
def writeBack (s : System Cache Addr Line Word) (c : Cache) (l : Line) :
    System Cache Addr Line Word :=
  if s.state c l = .dirty then
    { memory := fun a => if line a = l ∧ H.next c = none then s.copy c a else s.memory a
      state := fun d m =>
        if m = l ∧ d = c then .clean
        else if m = l ∧ H.next c = some d then .dirty
        else s.state d m
      copy := fun d a => if line a = l ∧ H.next c = some d then s.copy c a else s.copy d a }
  else
    s

/-- Write a line back if it is dirty, and drop it. -/
def evict (s : System Cache Addr Line Word) (c : Cache) (l : Line) :
    System Cache Addr Line Word :=
  (s.writeBack H line c l).setState c l .absent

def move (s : System Cache Addr Line Word) (c : Cache) (l : Line) : Move →
    System Cache Addr Line Word
  | .fetch => s.fetch H line c l
  | .writeBack => s.writeBack H line c l
  | .evict => s.evict H line c l

/-- The same for some caches one after the other. -/
def moveAll (s : System Cache Addr Line Word) (cs : List Cache) (l : Line) (k : Move) :
    System Cache Addr Line Word :=
  cs.foldl (fun s c => s.move H line c l k) s

def load (s : System Cache Addr Line Word) (c : Cache) (a : Addr) :
    Word × System Cache Addr Line Word :=
  let s := s.fetch H line c (line a)
  (s.copy c a, s)

def store (s : System Cache Addr Line Word) (c : Cache) (a : Addr) (v : Word) :
    System Cache Addr Line Word :=
  let s := s.fetch H line c (line a)
  { s with copy := fun d b => if d = c ∧ b = a then v else s.copy d b }.setState c (line a) .dirty

/-! ## What is known of a line or a word -/

/-- Lines are dirty only where `D` says so. -/
def DirtyIn (s : System Cache Addr Line Word) (D : Cache → Line → Prop) : Prop :=
  ∀ c l, s.state c l = .dirty → D c l

/-- A line is dirty only in these caches. -/
def DirtyOn (s : System Cache Addr Line Word) (l : Line) (path : List Cache) : Prop :=
  ∀ c, s.state c l = .dirty → c ∈ path

/-- The copies on a path up to the first dirty one, or up to the memory, are `v`. -/
def Latest (s : System Cache Addr Line Word) (a : Addr) (v : Word) : List Cache → Prop
  | [] => s.memory a = v
  | c :: rest =>
    (s.state c (line a) ≠ .absent → s.copy c a = v) ∧
      (s.state c (line a) ≠ .dirty → s.Latest a v rest)

/-- `v` is what was stored to the word `a` last, by somebody with this path. -/
structure Holds (s : System Cache Addr Line Word) (path : List Cache) (a : Addr) (v : Word) :
    Prop where
  dirty : s.DirtyOn (line a) path
  latest : s.Latest line a v path

/-- Whatever is to be seen of a word is in `V`. -/
structure Visible (s : System Cache Addr Line Word) (a : Addr) (V : Word → Prop) : Prop where
  memory : V (s.memory a)
  copy : ∀ c, s.state c (line a) ≠ .absent → V (s.copy c a)

/-- Two states with the same copies of a word. -/
structure Same (s s' : System Cache Addr Line Word) (a : Addr) : Prop where
  memory : s'.memory a = s.memory a
  state : ∀ c, s'.state c (line a) = s.state c (line a)
  copy : ∀ c, s'.copy c a = s.copy c a

variable {H line} {s s' : System Cache Addr Line Word} {c d : Cache} {a b : Addr} {l m : Line}
  {k : Move} {v w : Word} {V : Word → Prop} {D : Cache → Line → Prop}
  {cs path rest inner outer : List Cache}

section

omit [DecidableEq Cache] [DecidableEq Addr] [DecidableEq Line]

theorem DirtyIn.mono {D' : Cache → Line → Prop} (h : s.DirtyIn D) (hD : ∀ c l, D c l → D' c l) :
    s.DirtyIn D' :=
  fun c l hc => hD c l (h c l hc)

theorem DirtyOn.mono (h : s.DirtyOn l inner) (hle : ∀ c ∈ inner, c ∈ outer) : s.DirtyOn l outer :=
  fun c hc => hle c (h c hc)

theorem Visible.mono {V' : Word → Prop} (h : s.Visible line a V) (hV : ∀ v, V v → V' v) :
    s.Visible line a V' :=
  ⟨hV _ h.memory, fun c hc => hV _ (h.copy c hc)⟩

theorem Latest.congr (h : s.Latest line a v path) (hmemory : s'.memory a = s.memory a)
    (hstate : ∀ c ∈ path, s'.state c (line a) = s.state c (line a))
    (hcopy : ∀ c ∈ path, s'.copy c a = s.copy c a) : s'.Latest line a v path := by
  induction path with
  | nil => exact hmemory.trans h
  | cons c rest ih =>
    obtain ⟨hhead, hrest⟩ := h
    have hc : c ∈ c :: rest := List.mem_cons_self
    rw [Latest, hstate c hc, hcopy c hc]
    exact ⟨hhead, fun hclean => ih (hrest hclean)
      (fun d hd => hstate d (List.mem_cons_of_mem _ hd))
      (fun d hd => hcopy d (List.mem_cons_of_mem _ hd))⟩

theorem Same.holds (h : Same line s s' a) (hs : s.Holds line path a v) :
    s'.Holds line path a v :=
  ⟨fun c hc => hs.dirty c (h.state c ▸ hc),
    hs.latest.congr h.memory (fun c _ => h.state c) (fun c _ => h.copy c)⟩

theorem Same.visible (h : Same line s s' a) (hs : s.Visible line a V) :
    s'.Visible line a V := by
  refine ⟨?_, fun c hc => ?_⟩
  · rw [h.memory]
    exact hs.memory
  · rw [h.copy]
    exact hs.copy c (h.state c ▸ hc)

/-- What was stored last can be dirty further out only, once the inner caches are clean. -/
theorem Holds.of_append (h : s.Holds line (inner ++ outer) a v)
    (hpath : H.IsPath (inner ++ outer)) (hdirty : s.DirtyOn (line a) outer) :
    s.Holds line outer a v := by
  refine ⟨hdirty, ?_⟩
  have hclean : ∀ c ∈ inner, s.state c (line a) ≠ .dirty := fun c hc hstate =>
    hpath.disjoint hc (hdirty c hstate)
  have hlatest := h.latest
  clear h hpath hdirty
  induction inner with
  | nil => exact hlatest
  | cons c inner ih =>
    exact ih (fun d hd => hclean d (List.mem_cons_of_mem _ hd))
      (hlatest.2 (hclean c List.mem_cons_self))

/-- Caches that have no copy hide nothing. -/
theorem Holds.of_absent (h : s.Holds line outer a v)
    (habsent : ∀ c ∈ inner, s.state c (line a) = .absent) :
    s.Holds line (inner ++ outer) a v := by
  refine ⟨h.dirty.mono fun c => List.mem_append_right _, ?_⟩
  induction inner with
  | nil => exact h.latest
  | cons c inner ih =>
    refine ⟨fun hcached => absurd (habsent c List.mem_cons_self) hcached, fun _ => ?_⟩
    exact ih fun d hd => habsent d (List.mem_cons_of_mem _ hd)

/-- What is dirty nowhere is in the memory. -/
theorem Holds.memory (h : s.Holds line path a v) (hpath : H.IsPath path)
    (hclean : ∀ c, s.state c (line a) ≠ .dirty) : s.memory a = v := by
  have hall : s.Holds line (path ++ []) a v := by rwa [List.append_nil]
  exact (hall.of_append (by rwa [List.append_nil]) fun c hc => absurd hc (hclean c)).latest

end

section

omit [DecidableEq Cache] [DecidableEq Addr] [DecidableEq Line]

/-- Who has the path sees what was stored last. -/
theorem Latest.view (h : s.Latest line a v path) : s.view line path a = v := by
  induction path with
  | nil => exact h
  | cons c rest ih =>
    obtain ⟨hhead, hrest⟩ := h
    rw [System.view]
    split
    · rename_i habsent
      exact ih (hrest (by simp [habsent]))
    · exact hhead (by assumption)

theorem Visible.view (h : s.Visible line a V) (path : List Cache) : V (s.view line path a) := by
  induction path with
  | nil => exact h.memory
  | cons c rest ih =>
    rw [System.view]
    split
    · exact ih
    · exact h.copy c (by assumption)

end

/-! ## Fetching -/

omit [DecidableEq Addr]

theorem same_fetch (h : line a ≠ l) : Same line s (s.fetch H line c l) a := by
  constructor <;> intros <;> simp only [fetch, setState] <;> grind

theorem fetch_memory : (s.fetch H line c l).memory = s.memory := by
  rw [fetch]
  split <;> rfl

theorem fetch_state_self : (s.fetch H line c l).state c l ≠ .absent := by
  rw [fetch]
  split
  · simp [setState]
  · assumption

theorem fetch_dirty : (s.fetch H line c l).state d m = .dirty ↔ s.state d m = .dirty := by
  simp only [fetch, setState]
  grind

theorem fetch_state_of_ne (h : d ≠ c) : (s.fetch H line c l).state d m = s.state d m := by
  simp only [fetch, setState]
  grind

theorem fetch_copy_of_ne (h : d ≠ c) : (s.fetch H line c l).copy d a = s.copy d a := by
  simp only [fetch, setState]
  grind

/-- A cache has of a line what was to be seen before it was fetched. -/
theorem fetch_copy_self :
    (s.fetch H line c (line a)).copy c a = s.view line (c :: H.outward c) a := by
  simp only [fetch, setState, System.view]
  grind

theorem DirtyOn.fetch (h : s.DirtyOn l path) : (s.fetch H line c m).DirtyOn l path :=
  fun d hd => h d (fetch_dirty.1 hd)

theorem DirtyIn.fetch (h : s.DirtyIn D) : (s.fetch H line c l).DirtyIn D :=
  fun d m hd => h d m (fetch_dirty.1 hd)

theorem Latest.fetch (h : s.Latest line a v path) (hpath : H.IsPath path) :
    (s.fetch H line c (line a)).Latest line a v path := by
  induction path with
  | nil => exact (congrFun fetch_memory a).trans h
  | cons d rest ih =>
    obtain ⟨hhead, hrest⟩ := h
    by_cases hd : d = c
    · subst hd
      refine ⟨fun _ => ?_, fun hclean => ?_⟩
      · rw [fetch_copy_self, hpath.1]
        exact Latest.view ⟨hhead, hrest⟩
      · refine (hrest fun hdirty => hclean (fetch_dirty.2 hdirty)).congr (congrFun fetch_memory a)
          (fun e he => fetch_state_of_ne ?_) (fun e he => fetch_copy_of_ne ?_) <;>
          exact fun heq => hpath.notMem (heq ▸ he)
    · refine ⟨fun hcached => ?_, fun hclean => ih (hrest fun hdirty => ?_) hpath.2⟩
      · rw [fetch_state_of_ne hd] at hcached
        rw [fetch_copy_of_ne hd]
        exact hhead hcached
      · exact hclean (fetch_dirty.2 hdirty)

theorem Holds.fetch (h : s.Holds line path a v) (hpath : H.IsPath path) :
    (s.fetch H line c l).Holds line path a v := by
  by_cases hl : line a = l
  · subst hl
    exact ⟨h.dirty.fetch, h.latest.fetch hpath⟩
  · exact (same_fetch hl).holds h

theorem Visible.fetch (h : s.Visible line a V) : (s.fetch H line c l).Visible line a V := by
  by_cases hl : line a = l
  · subst hl
    refine ⟨?_, fun d hd => ?_⟩
    · rw [fetch_memory]
      exact h.memory
    · by_cases hdc : d = c
      · subst hdc
        rw [fetch_copy_self]
        exact h.view _
      · rw [fetch_state_of_ne hdc] at hd
        rw [fetch_copy_of_ne hdc]
        exact h.copy d hd
  · exact (same_fetch hl).visible h

/-! ## Writing back -/

theorem same_writeBack (h : line a ≠ l) : Same line s (s.writeBack H line c l) a := by
  constructor <;> intros <;> simp only [writeBack] <;> grind

theorem writeBack_of_clean (h : s.state c l ≠ .dirty) : s.writeBack H line c l = s :=
  if_neg h

theorem writeBack_state_self : (s.writeBack H line c l).state c l ≠ .dirty := by
  simp only [writeBack]
  grind

theorem writeBack_state_of_ne (h : d ≠ c) (hnext : H.next c ≠ some d) :
    (s.writeBack H line c l).state d m = s.state d m := by
  simp only [writeBack]
  grind

theorem writeBack_copy_of_ne (hnext : H.next c ≠ some d) :
    (s.writeBack H line c l).copy d a = s.copy d a := by
  simp only [writeBack]
  grind

/-- Nothing is dirty after it that was not before, but further out. -/
theorem writeBack_dirty (h : (s.writeBack H line c l).state d m = .dirty) :
    s.state d m = .dirty ∨ s.state c m = .dirty ∧ H.next c = some d := by
  simp only [writeBack] at h
  grind

theorem DirtyIn.writeBack (h : s.DirtyIn D)
    (hD : ∀ c d l, H.next c = some d → D c l → D d l) : (s.writeBack H line c l).DirtyIn D := by
  intro d m hd
  rcases writeBack_dirty hd with hold | ⟨hold, hnext⟩
  · exact h d m hold
  · exact hD c d m hnext (h c m hold)

theorem DirtyOn.writeBack (h : s.DirtyOn l path) (hpath : H.IsPath path) :
    (s.writeBack H line c m).DirtyOn l path := by
  intro d hd
  rcases writeBack_dirty hd with hold | ⟨hold, hnext⟩
  · exact h d hold
  · exact hpath.mem_of_next (h c hold) hnext

theorem Latest.writeBack (h : s.Latest line a v path) (hpath : H.IsPath path)
    (hc : s.state c (line a) = .dirty → c ∈ path) :
    (s.writeBack H line c (line a)).Latest line a v path := by
  by_cases hdirty : s.state c (line a) = .dirty
  · have hmem := hc hdirty
    clear hc
    induction path with
    | nil => cases hmem
    | cons d rest ih =>
      obtain ⟨hhead, hrest⟩ := h
      by_cases hd : d = c
      · subst hd
        have hcopy := hhead (by simp [hdirty])
        have hne : H.next d ≠ some d := fun hnext => Hierarchy.next_ne hnext rfl
        refine ⟨fun _ => (writeBack_copy_of_ne hne).trans hcopy, fun _ => ?_⟩
        cases rest with
        | nil =>
          have hnext : H.next d = none := by rw [Hierarchy.next, hpath.1, List.head?_nil]
          simp [Latest, System.writeBack, hdirty, hnext, hcopy]
        | cons e rest =>
          have hnext : H.next d = some e := by rw [Hierarchy.next, hpath.1, List.head?_cons]
          have hed : e ≠ d := (Hierarchy.next_ne hnext).symm
          simp [Latest, System.writeBack, hdirty, hnext, hcopy, hed]
      · have hrestmem : c ∈ rest := (List.mem_cons.1 hmem).resolve_left (Ne.symm hd)
        have hne : H.next c ≠ some d := fun hnext =>
          hpath.notMem (hpath.2.mem_of_next hrestmem hnext)
        rw [Latest, writeBack_state_of_ne hd hne, writeBack_copy_of_ne hne]
        exact ⟨hhead, fun hclean => ih (hrest hclean) hpath.2 hrestmem⟩
  · rwa [writeBack_of_clean hdirty]

theorem Holds.writeBack (h : s.Holds line path a v) (hpath : H.IsPath path) :
    (s.writeBack H line c l).Holds line path a v := by
  by_cases hl : line a = l
  · subst hl
    exact ⟨h.dirty.writeBack hpath, h.latest.writeBack hpath (h.dirty c)⟩
  · exact (same_writeBack hl).holds h

theorem Visible.writeBack (h : s.Visible line a V) : (s.writeBack H line c l).Visible line a V := by
  obtain ⟨hmemory, hcopy⟩ := h
  constructor <;> simp only [System.writeBack] <;> grind

/-! ## Dropping a line -/

theorem same_setState {x : LineState} (h : line a ≠ l) : Same line s (s.setState c l x) a := by
  refine ⟨rfl, fun d => ?_, fun _ => rfl⟩
  simp only [setState]
  grind

theorem DirtyIn.drop (h : s.DirtyIn D) : (s.setState c l .absent).DirtyIn D := by
  intro d m hd
  have hold := h d m
  simp only [setState] at hd
  grind

theorem DirtyOn.drop (h : s.DirtyOn l path) : (s.setState c m .absent).DirtyOn l path := by
  intro d hd
  have hold := h d
  simp only [setState] at hd
  grind

theorem Latest.drop (h : s.Latest line a v path) (hclean : s.state c (line a) ≠ .dirty) :
    (s.setState c (line a) .absent).Latest line a v path := by
  induction path with
  | nil => exact h
  | cons d rest ih =>
    obtain ⟨hhead, hrest⟩ := h
    simp only [Latest, setState] at ih ⊢
    grind

theorem Holds.drop (h : s.Holds line path a v) (hclean : s.state c l ≠ .dirty) :
    (s.setState c l .absent).Holds line path a v := by
  by_cases hl : line a = l
  · subst hl
    exact ⟨h.dirty.drop, h.latest.drop hclean⟩
  · exact (same_setState hl).holds h

theorem Visible.drop (h : s.Visible line a V) : (s.setState c l .absent).Visible line a V := by
  obtain ⟨hmemory, hcopy⟩ := h
  constructor <;> simp only [setState] <;> grind

/-! ## What a cache may do at any time -/

theorem DirtyIn.move (h : s.DirtyIn D) (hD : ∀ c d l, H.next c = some d → D c l → D d l) :
    (s.move H line c l k).DirtyIn D := by
  cases k with
  | fetch => exact h.fetch
  | writeBack => exact h.writeBack hD
  | evict => exact (h.writeBack hD).drop

theorem DirtyOn.move (h : s.DirtyOn l path) (hpath : H.IsPath path) :
    (s.move H line c m k).DirtyOn l path := by
  cases k with
  | fetch => exact h.fetch
  | writeBack => exact h.writeBack hpath
  | evict => exact (h.writeBack hpath).drop

theorem Holds.move (h : s.Holds line path a v) (hpath : H.IsPath path) :
    (s.move H line c l k).Holds line path a v := by
  cases k with
  | fetch => exact h.fetch hpath
  | writeBack => exact h.writeBack hpath
  | evict => exact (h.writeBack hpath).drop writeBack_state_self

theorem Visible.move (h : s.Visible line a V) : (s.move H line c l k).Visible line a V := by
  cases k with
  | fetch => exact h.fetch
  | writeBack => exact h.writeBack
  | evict => exact h.writeBack.drop

/-- The memory changes only where something is dirty. -/
theorem move_memory (h : s.state c (line a) ≠ .dirty) :
    (s.move H line c l k).memory a = s.memory a := by
  cases k with
  | fetch => exact congrFun fetch_memory a
  | writeBack =>
    simp only [System.move, writeBack]
    grind
  | evict =>
    simp only [System.move, evict, setState, writeBack]
    grind

/-- What every move keeps, moves of several caches keep. -/
theorem moveAll_induction {P : System Cache Addr Line Word → Prop} (h : P s)
    (hmove : ∀ s c, P s → P (s.move H line c l k)) (cs : List Cache) :
    P (s.moveAll H line cs l k) := by
  induction cs generalizing s with
  | nil => exact h
  | cons c cs ih => exact ih (hmove s c h)

theorem DirtyIn.moveAll (h : s.DirtyIn D) (hD : ∀ c d l, H.next c = some d → D c l → D d l) :
    (s.moveAll H line cs l k).DirtyIn D :=
  moveAll_induction (P := fun s => s.DirtyIn D) h (fun _ _ hs => hs.move hD) cs

theorem DirtyOn.moveAll (h : s.DirtyOn l path) (hpath : H.IsPath path) :
    (s.moveAll H line cs m k).DirtyOn l path :=
  moveAll_induction (P := fun s => s.DirtyOn l path) h (fun _ _ hs => hs.move hpath) cs

theorem Holds.moveAll (h : s.Holds line path a v) (hpath : H.IsPath path) :
    (s.moveAll H line cs l k).Holds line path a v :=
  moveAll_induction (P := fun s => s.Holds line path a v) h (fun _ _ hs => hs.move hpath) cs

theorem Visible.moveAll (h : s.Visible line a V) : (s.moveAll H line cs l k).Visible line a V :=
  moveAll_induction (P := fun s => s.Visible line a V) h (fun _ _ hs => hs.move) cs

/-! ## What the moves of all caches on the way come to -/

/-- A line that is written back on the first part of a path is dirty there no more. -/
theorem DirtyOn.writeBackAll (h : s.DirtyOn l (inner ++ outer))
    (hpath : H.IsPath (inner ++ outer)) :
    (s.moveAll H line inner l .writeBack).DirtyOn l outer := by
  induction inner generalizing s with
  | nil => exact h
  | cons c inner ih =>
    refine ih (fun d hd => ?_) hpath.2
    rcases List.mem_cons.1 (h.writeBack hpath d hd) with rfl | hmem
    · exact absurd hd writeBack_state_self
    · exact hmem

theorem evict_state_of_absent (h : s.state d l = .absent) (hnext : H.next c ≠ some d) :
    (s.evict H line c l).state d l = .absent := by
  simp only [evict, writeBack, setState]
  grind

theorem evict_state_self : (s.evict H line c l).state c l = .absent := by
  simp [evict, setState]

theorem moveAll_evict_of_absent (h : s.state d l = .absent)
    (hnext : ∀ c ∈ cs, H.next c ≠ some d) : (s.moveAll H line cs l .evict).state d l = .absent := by
  induction cs generalizing s with
  | nil => exact h
  | cons c cs ih =>
    exact ih (evict_state_of_absent h (hnext c List.mem_cons_self))
      fun e he => hnext e (List.mem_cons_of_mem _ he)

/-- Where a line was dropped it has no copy. -/
theorem moveAll_evict (hpath : H.IsPath (cs ++ outer)) (hc : c ∈ cs) :
    (s.moveAll H line cs l .evict).state c l = .absent := by
  induction cs generalizing s with
  | nil => cases hc
  | cons d cs ih =>
    rcases List.mem_cons.1 hc with rfl | hc
    · rw [moveAll, List.foldl_cons]
      refine moveAll_evict_of_absent evict_state_self fun e he hnext => ?_
      exact hpath.notMem (hpath.2.mem_of_next (List.mem_append_left _ he) hnext)
    · exact ih hpath.2 hc

/-! ## Accesses -/

theorem Holds.load (h : s.Holds line (c :: H.outward c) a v) : (s.load H line c a).1 = v :=
  fetch_copy_self.trans h.latest.view

theorem Visible.load (h : s.Visible line a V) (c : Cache) : V (s.load H line c a).1 := by
  rw [System.load, fetch_copy_self]
  exact h.view _

variable [DecidableEq Addr]

theorem same_store (h : line a ≠ line b) : Same line s (s.store H line c b w) a := by
  have hne : a ≠ b := fun heq => h (heq ▸ rfl)
  constructor <;> intros <;> simp only [store, fetch, setState] <;> grind

theorem store_dirty (h : (s.store H line c b w).state d l = .dirty) :
    s.state d l = .dirty ∨ d = c ∧ l = line b := by
  simp only [store, setState] at h
  split at h
  · rename_i heq
    exact .inr heq
  · exact .inl (fetch_dirty.1 h)

theorem DirtyIn.store (h : s.DirtyIn D) (hb : D c (line b)) : (s.store H line c b w).DirtyIn D := by
  intro d l hd
  rcases store_dirty hd with hold | ⟨rfl, rfl⟩
  · exact h d l hold
  · exact hb

theorem DirtyOn.store (h : s.DirtyOn l path) (hb : line b = l → c ∈ path) :
    (s.store H line c b w).DirtyOn l path := by
  intro d hd
  rcases store_dirty hd with hold | ⟨rfl, rfl⟩
  · exact h d hold
  · exact hb rfl

/-- A store to another word, by the cache that the path starts with. -/
theorem Holds.store (h : s.Holds line (c :: H.outward c) a v) (hne : a ≠ b) :
    (s.store H line c b w).Holds line (c :: H.outward c) a v := by
  by_cases hline : line a = line b
  · have hfetch := h.fetch (c := c) (l := line b) (Hierarchy.isPath_self c)
    refine ⟨h.dirty.store fun _ => List.mem_cons_self, fun _ => ?_, fun hclean => ?_⟩
    · have hcopy := hfetch.latest.1 (hline ▸ fetch_state_self)
      simp only [System.store, setState, hne, and_false, if_false]
      exact hcopy
    · simp [System.store, setState, hline] at hclean
  · exact (same_store hline).holds h

theorem Holds.of_store (h : s.DirtyOn (line a) (c :: H.outward c)) :
    (s.store H line c a v).Holds line (c :: H.outward c) a v := by
  refine ⟨h.store fun _ => List.mem_cons_self, fun _ => ?_, fun hclean => ?_⟩
  · simp [System.store, setState]
  · simp [System.store, setState] at hclean

theorem Visible.store (h : s.Visible line a V) (hw : a = b → V w) :
    (s.store H line c b w).Visible line a V := by
  obtain ⟨hmemory, hcopy⟩ := h.fetch (H := H) (c := c) (l := line b)
  have hstate : (s.fetch H line c (line b)).state c (line b) ≠ .absent := fetch_state_self
  constructor <;> simp only [System.store, setState] <;> grind

end System
end WriteBackCache
