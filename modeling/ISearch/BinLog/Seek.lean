import ISearch.Lib.Run
import ISearch.BinLog.Defs

/-!
# Seeking in the log

When a `seek` keeps its promise: a reader that was moved reads what stands at the new position, one
that was not moved goes on as before. The reader is used while the log grows, so what counts is its
behaviour on every later state of the files.
-/

namespace ISearch.BinLog

namespace Files

/-- Files are only appended to; they may come and go in the directory. -/
def Grows (files files' : Files) : Prop := ∀ serial, files.content serial <+: files'.content serial

theorem grows_refl (files : Files) : files.Grows files := fun _ => List.prefix_rfl

theorem grows_append (files : Files) (serial : UInt32) (bytes : Bytes) :
    files.Grows (files.append serial bytes) := by
  intro s
  by_cases hs : s = serial
  · subst hs
    simp [append]
  · simp [append, hs]

theorem openFile_eq_some {files : Files} {serial : UInt32} {fd : UInt32 × Nat}
    (h : files.openFile serial = some fd) : fd = (serial, 0) := by
  rw [openFile] at h
  split at h
  · exact (Option.some.inj h).symm
  · cases h

end Files

inductive Call
  | seek (v : JournalID)
  | read (size : Nat)

namespace LogReader

/-- A call on the files as they stand at that moment. -/
def call (r : LogReader) : Files × Call → (Bool ⊕ Option Bytes) × LogReader
  | (files, .seek v) => (.inl (r.seek files v).1, (r.seek files v).2)
  | (files, .read size) => (.inr (r.read files size).1, (r.read files size).2)

/-- The current serial names the file that is open. -/
def Named (r : LogReader) : Prop := ∀ fd ∈ r.fd, fd.1 = r.curSerial

instance (r : LogReader) : Decidable r.Named :=
  inferInstanceAs (Decidable (∀ fd ∈ r.fd, fd.1 = r.curSerial))

/-- What a seek owes to the caller. -/
structure SeekOk (r : LogReader) (files : Files) (v : JournalID) : Prop where
  named : (r.seek files v).2.Named
  reads : (r.seek files v).1 = true → ∀ files', files.Grows files' → ∀ size, 0 < size →
    v.offset.toNat + size ≤ (files'.content v.serial).length →
    ((r.seek files v).2.read files' size).1 =
      some (((files'.content v.serial).drop v.offset.toNat).take size)
  same : (r.seek files v).1 = false → ∀ calls : List (Files × Call),
    (files :: calls.map Prod.fst).Pairwise Files.Grows →
    outputs call (r.seek files v).2 calls = outputs call r calls

/-- The seek neither leaves the reader on another file than it says nor moves a reader without a
file. -/
def SeekKeeps (r : LogReader) (files : Files) (v : JournalID) : Prop :=
  if v.serial ∉ files.serials then r.Named
  else if v.serial = r.curSerial then r.Named ∧ (r.fd = none → 0 < v.offset.toNat)
  else if files.canOpen v.serial then
    v.offset.toNat ≤ (files.content v.serial).length % 2 ^ 32
  else r.fd = none

section

variable {r : LogReader} {files : Files} {v : JournalID}

theorem seek_of_not_mem (h : v.serial ∉ files.serials) : r.seek files v = (false, r) := if_pos h

theorem seek_of_eq (hmem : v.serial ∈ files.serials) (h : v.serial = r.curSerial) :
    r.seek files v = if r.statSize files % 2 ^ 32 < v.offset.toNat then (false, r)
      else (true, { r with
        fd := r.fd.map fun (serial, _) => (serial, v.offset.toNat)
        curSerial := v.serial, curOffset := v.offset.toNat }) := by
  rw [seek, if_neg (not_not_intro hmem)]
  simp only [h, ne_eq, not_true_eq_false, false_and, if_false, if_true]

theorem seek_of_open (hmem : v.serial ∈ files.serials) (h : v.serial ≠ r.curSerial)
    (hopen : files.canOpen v.serial) :
    r.seek files v =
      if (files.content v.serial).length % 2 ^ 32 < v.offset.toNat then
        (false, { r with fd := some (v.serial, 0) })
      else (true, { r with
        fd := some (v.serial, v.offset.toNat)
        curSerial := v.serial, curOffset := v.offset.toNat }) := by
  have hfd : files.openFile v.serial = some (v.serial, 0) := if_pos ⟨hmem, hopen⟩
  simp [seek, hmem, h, hfd, statSize]

theorem seek_of_not_open (hmem : v.serial ∈ files.serials) (h : v.serial ≠ r.curSerial)
    (hopen : ¬files.canOpen v.serial) : r.seek files v = (false, { r with fd := none }) := by
  have hfd : files.openFile v.serial = none := if_neg fun h' => hopen h'.2
  simp [seek, hmem, h, hfd]

/-- A seek that fails without a trace. -/
theorem seekOk_of_unchanged (h : r.seek files v = (false, r)) : r.SeekOk files v ↔ r.Named := by
  constructor
  · intro hok
    have hnamed := hok.named
    rwa [h] at hnamed
  · intro hnamed
    refine ⟨by rwa [h], ?_, ?_⟩
    · intro htrue
      rw [h] at htrue
      cases htrue
    · intro _ calls _
      rw [h]

/-- A seek that leaves the reader at the position. -/
theorem seekOk_of_moved {r' : LogReader} (h : r.seek files v = (true, r'))
    (hfd : r'.fd = some (v.serial, v.offset.toNat)) (hcur : r'.curSerial = v.serial) :
    r.SeekOk files v := by
  refine ⟨?_, ?_, ?_⟩
  · rw [h]
    intro fd hmem
    rw [hfd] at hmem
    cases hmem
    exact hcur.symm
  · intro _ files' _ size _ hle
    rw [h, read_of_le hfd hle]
  · intro hfalse
    rw [h] at hfalse
    cases hfalse

theorem seekOk_same (hmem : v.serial ∈ files.serials) (h : v.serial = r.curSerial) :
    r.SeekOk files v ↔ r.Named ∧ (r.fd = none → 0 < v.offset.toNat) := by
  have hseek := seek_of_eq hmem h
  by_cases hlt : r.statSize files % 2 ^ 32 < v.offset.toNat
  · rw [if_pos hlt] at hseek
    rw [seekOk_of_unchanged hseek]
    exact ⟨fun hn => ⟨hn, fun _ => by omega⟩, And.left⟩
  rw [if_neg hlt] at hseek
  cases hfd : r.fd with
  | none =>
    -- the size is taken to be zero, so only offset 0 comes here; no read can succeed
    have hsize : r.statSize files = 0 := by simp [statSize, hfd]
    have hoff : v.offset.toNat = 0 := by
      rw [hsize] at hlt
      omega
    constructor
    · intro hok
      have hread := hok.reads (by rw [hseek]) _ (files.grows_append v.serial [0]) 1 one_pos
        (by simp [hoff, Files.append])
      rw [hseek, read_of_none (by simp [hfd])] at hread
      cases hread
    · rintro ⟨-, hpos⟩
      have := hpos rfl
      omega
  | some fd =>
    obtain ⟨serial, pos⟩ := fd
    constructor
    · intro hok
      have hnamed := hok.named
      rw [hseek, h] at hnamed
      refine ⟨?_, fun hnone => by cases hnone⟩
      intro fd' hfd'
      rw [hfd] at hfd'
      cases hfd'
      exact hnamed (serial, v.offset.toNat) (by simp [hfd])
    · rintro ⟨hnamed, -⟩
      have hserial : serial = r.curSerial := hnamed (serial, pos) hfd
      exact seekOk_of_moved hseek (by simp [hfd, hserial, h]) rfl

theorem seekOk_open (hmem : v.serial ∈ files.serials) (h : v.serial ≠ r.curSerial)
    (hopen : files.canOpen v.serial) :
    r.SeekOk files v ↔ v.offset.toNat ≤ (files.content v.serial).length % 2 ^ 32 := by
  have hseek := seek_of_open hmem h hopen
  by_cases hlt : (files.content v.serial).length % 2 ^ 32 < v.offset.toNat
  · rw [if_pos hlt] at hseek
    constructor
    · intro hok
      have hnamed := hok.named
      rw [hseek] at hnamed
      exact absurd (hnamed (v.serial, 0) rfl) h
    · intro hle
      omega
  · rw [if_neg hlt] at hseek
    exact ⟨fun _ => by omega, fun _ => seekOk_of_moved hseek rfl rfl⟩

theorem seekOk_not_open (hmem : v.serial ∈ files.serials) (h : v.serial ≠ r.curSerial)
    (hopen : ¬files.canOpen v.serial) : r.SeekOk files v ↔ r.fd = none := by
  have hseek := seek_of_not_open hmem h hopen
  constructor
  · intro hok
    cases hfd : r.fd with
    | none => rfl
    | some fd =>
      obtain ⟨serial, pos⟩ := fd
      have hsame := hok.same (by rw [hseek])
        [(files.append serial (List.replicate (pos + 1) 0), .read 1)]
        (by simpa using files.grows_append serial _)
      have hle : pos + 1 ≤
          ((files.append serial (List.replicate (pos + 1) 0)).content serial).length := by
        simp [Files.append]
      simp only [hseek, outputs, call, read_of_none, read_of_le hfd hle] at hsame
      cases hsame
  · intro hnone
    have hr : ({ r with fd := none } : LogReader) = r := by rw [← hnone]
    rw [hr] at hseek
    rw [seekOk_of_unchanged hseek]
    intro fd hfd
    rw [hnone] at hfd
    cases hfd

end

theorem seekOk_iff_seekKeeps (r : LogReader) (files : Files) (v : JournalID) :
    r.SeekOk files v ↔ r.SeekKeeps files v := by
  rw [SeekKeeps]
  by_cases hmem : v.serial ∈ files.serials
  · rw [if_neg (not_not_intro hmem)]
    by_cases hcur : v.serial = r.curSerial
    · rw [if_pos hcur]
      exact seekOk_same hmem hcur
    · rw [if_neg hcur]
      by_cases hopen : files.canOpen v.serial
      · rw [if_pos hopen]
        exact seekOk_open hmem hcur hopen
      · rw [if_neg hopen]
        exact seekOk_not_open hmem hcur hopen
  · rw [if_pos hmem]
    exact seekOk_of_unchanged (seek_of_not_mem hmem)

theorem openNext_named {files : Files} {last cur cur' : UInt32} {fd : UInt32 × Nat}
    (h : openNext files last cur = (some fd, cur')) : fd.1 = cur' := by
  induction cur using openNext.induct files last with
  | case1 cur fd' hopen =>
    rw [openNext, hopen] at h
    cases h
    rw [Files.openFile_eq_some hopen]
  | case2 cur hopen hlt ih =>
    rw [openNext, hopen] at h
    simp only [if_pos hlt] at h
    exact ih h
  | case3 cur hopen hlt =>
    rw [openNext, hopen] at h
    simp only [if_neg hlt] at h
    cases h

theorem named_read {r : LogReader} (h : r.Named) (files : Files) (size : Nat) :
    (r.read files size).2.Named := by
  fun_induction read r files size with
  | case1 => exact h
  | case2 r serial pos hfd =>
    intro fd hmem
    cases hmem
    exact h (serial, pos) hfd
  | case3 r serial pos hfd bytes hlen r' hlt fd cur hnext ih =>
    apply ih
    intro fd' hmem
    cases hmem
    exact openNext_named hnext
  | case4 r serial pos hfd bytes hlen r' hlt cur hnext =>
    intro fd hmem
    cases hmem
  | case5 r serial pos hfd bytes hlen r' hlt hnil =>
    intro fd hmem
    cases hmem
    exact h (serial, pos) hfd
  | case6 r serial pos hfd bytes hlen r' hlt hnil =>
    have hserial : serial = r.curSerial := h (serial, pos) hfd
    have hr' : r'.Named := by
      intro fd hmem
      cases hmem
      exact hserial
    by_cases hmem : r'.curSerial ∈ files.serials
    · exact ((seekOk_same hmem rfl).mpr ⟨hr', fun hnone => by cases hnone⟩).named
    · rw [seek_of_not_mem hmem]
      exact hr'

/-- The condition on the calls of a run: every seek keeps its promise. -/
def CallKeeps (r : LogReader) : Files × Call → Prop
  | (files, .seek v) => r.SeekKeeps files v
  | (_, .read _) => True

instance (r : LogReader) : DecidablePred r.CallKeeps
  | (files, .seek v) => by
    unfold CallKeeps SeekKeeps
    infer_instance
  | (_, .read _) => inferInstanceAs (Decidable True)

theorem named_call {r : LogReader} (h : r.Named) {c : Files × Call} (hc : r.CallKeeps c) :
    (r.call c).2.Named := by
  obtain ⟨files, c⟩ := c
  cases c with
  | seek v => exact ((seekOk_iff_seekKeeps r files v).mpr hc).named
  | read size => exact named_read h files size

/-- A seek keeps its promise unless it opens another file and then fails, loses the open file, or
succeeds without one; and as long as all seeks do, the current serial names the open file. -/
theorem seekOk_iff (r : LogReader) :
    (∀ (files : Files) (v : JournalID), r.SeekOk files v ↔ r.SeekKeeps files v) ∧
    ∀ calls : List (Files × Call), r.Named →
      AlongRun (fun r c => some (r.call c).2) CallKeeps r calls →
      ∃ r', runOps (fun r c => some (call r c).2) r calls = some r' ∧ r'.Named := by
  refine ⟨seekOk_iff_seekKeeps r, fun calls h hcalls => ?_⟩
  refine invariant_along ?_ h calls hcalls
  intro r c hr hc
  exact ⟨(r.call c).2, rfl, named_call hr hc⟩

/-- Two files of one byte each, and a reader at the start of the first. -/
def twoFiles : Files where
  serials := [1, 2]
  content serial := if serial = 1 then [7] else [9]
  canOpen _ := true

theorem seekOk_iff_twoFiles :
    ∃ r', runOps (fun r c => some (call r c).2) (openLog twoFiles)
      [(twoFiles, .seek ⟨2, 0⟩), (twoFiles, .seek ⟨1, 1⟩), (twoFiles, .seek ⟨1, 0⟩)] = some r' ∧
      r'.Named :=
  (seekOk_iff (openLog twoFiles)).2 _ (by decide) (by decide)

/-- A position behind the end of the second file is refused, and the next byte is the second file's
all the same. -/
theorem not_seekOk_twoFiles : ¬(openLog twoFiles).SeekOk twoFiles ⟨2, 5⟩ := by
  intro hok
  have hopen : openLog twoFiles = ⟨some (1, 0), 1, 2, 1, 0⟩ := by decide
  have hseek : (openLog twoFiles).seek twoFiles ⟨2, 5⟩ = (false, ⟨some (2, 0), 1, 2, 1, 0⟩) := by
    decide
  have hsame := hok.same (by rw [hseek]) [(twoFiles, .read 1)]
    (by simpa using Files.grows_refl twoFiles)
  have htwo : 0 + 1 ≤ (twoFiles.content 2).length := by decide
  have hnew : (LogReader.mk (some (2, 0)) 1 2 1 0).read twoFiles 1 =
      (some [9], ⟨some (2, 1), 1, 2, 1, 1⟩) := read_of_le rfl htwo
  have hone : 0 + 1 ≤ (twoFiles.content 1).length := by decide
  have hold : (LogReader.mk (some (1, 0)) 1 2 1 0).read twoFiles 1 =
      (some [7], ⟨some (1, 1), 1, 2, 1, 1⟩) := read_of_le rfl hone
  rw [hseek, hopen] at hsame
  simp only [outputs, call, hnew, hold] at hsame
  revert hsame
  decide

end LogReader

end ISearch.BinLog
