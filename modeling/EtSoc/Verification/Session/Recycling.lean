import EtSoc.Verification.Session.Runs

/-! # Recycling host memory

Which host buffers a device may still access when no call is running. -/

namespace EtSoc

open Function Program

/-- A command transfers the buffer whose response has not been popped. -/
def World.InFlight (w : World) (b : BufId) : Prop :=
  ∃ c a, w.accepted[c]? = some a ∧ (∃ n ∈ a.cmd.nodes, n.hostVirtAddr.buf = b) ∧
    w.popped c = false

theorem World.Released.not_inFlight {w : World} {b : BufId} (h : w.Released w.accepted b) :
    ¬w.InFlight b := by
  rintro ⟨c, a, ha, hn, hpop⟩
  simp [h c a ha hn] at hpop

namespace Session

/-- No buffer is in flight that the driver keeps for later transfers, that a client has
pinned, or that was unmapped when the staging buffers were replaced. -/
structure Recyclable (s : Session) : Prop where
  staging : ∀ b ∈ s.sys.dev.staging, ¬s.sys.world.InFlight b.id
  pinned : ∀ b ∈ s.hosts, ¬s.sys.world.InFlight b.id
  discarded : ∀ b ∈ s.sys.unmapped, b.purpose = .staging → ¬s.sys.world.InFlight b

/-- After a clean run, what is kept or unmapped is free. -/
theorem Good.recyclable {X : World → Prop} {s : Session} (h : Good True X s)
    (hstop : s.stopped = none) (hclean : s.sys.Clean) : Recyclable s := by
  obtain ⟨-, acc, fr, -, hs⟩ := h.resting hstop hclean
  obtain ⟨hshelf, rfl⟩ := hs.world
  have hframe := hs.frame
  refine ⟨fun b hb => ?_, fun b hb => ?_, fun b hb hp => ?_⟩
  · rw [show s.sys.dev.staging = fr.staging from congrArg Frame.staging hframe] at hb
    exact (hshelf.released trivial b hb).not_inFlight
  · exact (hshelf.base.racked.released trivial b hb).not_inFlight
  · rw [show s.sys.unmapped = fr.unmapped from congrArg Frame.unmapped hframe] at hb
    exact (hshelf.discarded trivial b hb hp).not_inFlight

/-- In any run in which no command is refused while another one of its chunk, the last one
pushed, is in flight, host memory is recycled only when the device is done with it. -/
theorem recycles {setup : Setup} (calls : List Call) (hbears : setup.machine.bearsTag = true)
    (hstop : ((init setup).run calls).stopped = none)
    (hexposed : ¬((init setup).run calls).sys.Exposed) : Recyclable ((init setup).run calls) :=
  (good_run hbears calls).recyclable hstop fun _ => hexposed

/-- The response to a list command under a tag below 256. -/
def reply (tag status : UInt8) : List UInt8 :=
  [36, 0, tag, 0, 0, 0, 0, 0] ++ List.replicate 24 0 ++ [status, 0, 0, 0]

/-- The response that reports success. -/
def complete (tag : UInt8) : List UInt8 := reply tag 0

/-- The device carries out a launch, or a command of one node, and answers it. -/
def answered (c : ℕ) (tag status : UInt8) : List World.DevStep :=
  [.start c, .copy c 0, .exec c, .answer c (reply tag status)]

/-- Then the response is popped. -/
def served (c : ℕ) (tag status : UInt8) : Choice := ⟨answered c tag status, .response c 0⟩

/-- So many transport calls succeed while the device does nothing. -/
def granted (n : ℕ) : List Choice := List.replicate n ⟨[], .yes⟩

/-- A device whose commands transfer at most two bytes each. -/
def narrow (script : List Choice) : Setup where
  machine := ⟨true, true, true, true, true, fun _ m => m, 4096⟩
  mem := fun _ => 0
  address := 0
  dram := ⟨0, 2 ^ 20, 2, 1, 4⟩
  defaultTimeout := 5
  script := script

/-- Of three transfers in two commands each, the first fails with its last command; the second
gives up on its first command, and leaks the buffer. -/
def leaky : Setup := narrow (granted 4 ++ [served 0 0 0, served 1 1 1] ++ granted 2 ++
  [⟨[], .no⟩, ⟨[], .yes⟩] ++ granted 3 ++
  [⟨answered 2 2 0 ++ answered 3 3 0 ++ answered 4 4 0, .response 4 0⟩, served 5 5 0] ++ granted 1)

def leaky.calls : List Call :=
  [.setStagingCapacity 1, .memcpyD2h 0 4 .default, .memcpyD2h 0 4 ⟨0, some 5⟩, .memcpyD2h 0 4 .default]

theorem recycles_leaky : Recyclable ((init leaky).run leaky.calls) ∧
    ((init leaky).run leaky.calls).sys.cut = [3] :=
  ⟨recycles leaky.calls rfl (by decide +kernel) (by decide +kernel), by decide +kernel⟩

/-- The first two commands belong to one transfer, and the first of them fails. -/
def torn (later : List Choice) : Setup where
  machine := ⟨true, true, true, true, true, fun _ m => m, 4096⟩
  mem := fun _ => 0
  address := 0
  dram := ⟨0, 2 ^ 20, 16, 2, 64⟩
  defaultTimeout := 5
  script :=
    [⟨[], .yes⟩, ⟨[], .yes⟩, ⟨[], .yes⟩, ⟨[], .yes⟩,
      ⟨[.start 0, .answer 0 (List.replicate 32 0 ++ [1, 0, 0, 0])], .response 0 0⟩] ++ later

set_option maxRecDepth 100000 in
/-- The buffer is kept while the second command is in flight. -/
theorem not_recyclable_torn : (torn []).machine.bearsTag = true ∧
    ((init (torn [])).run [.memcpyD2h 0 40 .default]).stopped = none ∧
    ¬Recyclable ((init (torn [])).run [.memcpyD2h 0 40 .default]) := by
  have hstaging : ((init (torn [])).run [.memcpyD2h 0 40 .default]).sys.dev.staging.map (·.id) =
      [⟨.staging, 0⟩] := by decide +kernel
  have hpopped : ((init (torn [])).run [.memcpyD2h 0 40 .default]).sys.world.popped 1 = false := by
    decide +kernel
  have hcmd : (((init (torn [])).run [.memcpyD2h 0 40 .default]).sys.world.accepted[1]?.map fun a =>
      a.cmd.nodes.map (·.hostVirtAddr.buf)) = some [⟨.staging, 0⟩] := by decide +kernel
  refine ⟨rfl, by decide +kernel, fun h => ?_⟩
  obtain ⟨b, hb, hid⟩ := List.mem_map.1 (hstaging ▸ List.mem_singleton_self _ :
    (⟨.staging, 0⟩ : BufId) ∈ _)
  obtain ⟨a, ha, hnodes⟩ := Option.map_eq_some_iff.1 hcmd
  obtain ⟨n, hn, hbuf⟩ := List.mem_map.1 (hnodes ▸ List.mem_singleton_self _ :
    (⟨.staging, 0⟩ : BufId) ∈ _)
  exact h.staging b hb ⟨1, a, ha, ⟨n, hn, hbuf.trans hid.symm⟩, hpopped⟩

end Session

end EtSoc
