import ISearch.Lib.Run
import ISearch.BinLog.Frames

/-!
# What the reader gets from the log

The writer and the reader of one log, in any order of their calls. The log is a queue: the bodies
that were committed so far and the number of those the reader has returned. The files hold the
bodies in groups, one group a file, and the reader stands between two frames of one of them.
-/

namespace ISearch.BinLog

open List

structure Log where
  files : Files
  writer : LogWriter
  reader : LogReader

inductive Op
  | initWriter (maxSize totalSize : Nat)
  | initReader
  | commit (b : Body)
  | read

namespace Log

/-- A log in an empty directory, whose files can all be opened, with its first writer. -/
def init (maxSize totalSize : Nat) : Log :=
  let files : Files := ⟨[], fun _ => [], fun _ => true⟩
  let (writer, files) := LogWriter.openLog files maxSize totalSize
  ⟨files, writer, {}⟩

def step (log : Log) : Op → Option Binlog × Log
  | .initWriter maxSize totalSize =>
    let (writer, files) := LogWriter.openLog log.files maxSize totalSize
    (none, { log with files, writer })
  | .initReader => (none, { log with reader := LogReader.openLog log.files })
  | .commit b =>
    let (writer, files) := log.writer.write log.files b.frame
    (none, { log with files, writer })
  | .read =>
    let (buffer, reader) := readBinlog log.reader log.files
    (buffer.map view, { log with reader })

/-- The commit starts a new file. -/
def Shifts (log : Log) (b : Body) : Prop :=
  log.writer.maxSize ≤ log.writer.curSize + b.frame.length

/-- The commit deletes no file of the log for the total size. -/
def NoDelete (log : Log) : Op → Prop
  | .commit b => log.Shifts b → log.writer.totalSize ≤ log.writer.total →
    log.writer.curMinSerial ∉ log.files.serials
  | _ => True

/-- The body is short enough for the reader, and the serials do not run out. -/
def Readable (log : Log) : Op → Prop
  | .commit b => b.length < 2 ^ 20 ∧ (log.Shifts b → log.writer.curMaxSerial ≠ 0xFFFFFFFF)
  | .initWriter _ _ => log.files.scanSerial.2 ≠ 0xFFFFFFFF
  | _ => True

end Log

/-- The bodies of the log and the number of those that the reader has returned, if it was opened. -/
structure Queue where
  committed : List Body := []
  next : Option Nat := none

namespace Queue

def step (q : Queue) : Op → Option Binlog × Queue
  | .initWriter _ _ => (none, q)
  | .initReader => (none, { q with next := some 0 })
  | .commit b => (none, { q with committed := q.committed ++ [b] })
  | .read =>
    match q.next.bind fun k => q.committed[k]? with
    | some b => (some ⟨b.frame, b.type, b.operater, b.records.length, b.records⟩,
        { q with next := q.next.map (· + 1) })
    | none => (none, q)

end Queue

/-! ## The files of a log -/

/-- The serial of the file behind `i` files. -/
def serialOf (i : Nat) : UInt32 := UInt32.ofNat (i + 1)

theorem toNat_serialOf {i : Nat} (h : i + 1 < 2 ^ 32) : (serialOf i).toNat = i + 1 := by
  simp only [serialOf, UInt32.toNat_ofNat']
  exact Nat.mod_eq_of_lt h

theorem serialOf_inj {i j : Nat} (hi : i + 1 < 2 ^ 32) (hj : j + 1 < 2 ^ 32) :
    serialOf i = serialOf j ↔ i = j := by
  rw [← UInt32.toNat_inj, toNat_serialOf hi, toNat_serialOf hj, Nat.add_right_cancel_iff]

theorem serialOf_add_one (i : Nat) : serialOf i + 1 = serialOf (i + 1) := by
  simp [serialOf]

theorem serialOf_lt {i j : Nat} (hi : i + 1 < 2 ^ 32) (hj : j + 1 < 2 ^ 32) :
    serialOf i < serialOf j ↔ i < j := by
  rw [UInt32.lt_iff_toNat_lt, toNat_serialOf hi, toNat_serialOf hj, Nat.add_lt_add_iff_right]

/-- The files hold the groups of frames, one file each. -/
structure Files.Holds (files : Files) (groups : List (List Body)) : Prop where
  ne_nil : groups ≠ []
  bound : groups.length < 2 ^ 32
  serials : files.serials = (List.range groups.length).map serialOf
  canOpen : ∀ serial, files.canOpen serial = true
  content : ∀ i g, groups[i]? = some g → files.content (serialOf i) = g.flatMap Body.frame
  readable : ∀ b ∈ groups.flatten, b.length < 2 ^ 20

namespace Files

theorem foldl_serials (n : Nat) (hn : n + 1 < 2 ^ 32) :
    ((List.range (n + 1)).map serialOf).foldl (fun (lo, hi) v =>
      if 1 ≤ v then (if v < lo then v else lo, if hi < v then v else hi) else (lo, hi))
      (0xFFFFFFFF, 0) = (1, serialOf n) := by
  induction n with
  | zero => decide
  | succ n ih =>
    have hpos : (1 : UInt32) ≤ serialOf (n + 1) := by
      rw [UInt32.le_iff_toNat_le, toNat_serialOf hn]
      simp
    have hlo : ¬serialOf (n + 1) < 1 := UInt32.not_lt.mpr hpos
    have hhi : serialOf n < serialOf (n + 1) := (serialOf_lt (by omega) hn).mpr (by omega)
    rw [range_succ, map_append, foldl_append, ih (by omega)]
    simp [hpos, hlo, hhi]

variable {files : Files} {groups : List (List Body)}

theorem Holds.scanSerial (h : files.Holds groups) :
    files.scanSerial = (1, serialOf (groups.length - 1)) := by
  have hpos := length_pos_iff.mpr h.ne_nil
  have hbound := h.bound
  obtain ⟨n, hn⟩ : ∃ n, groups.length = n + 1 := ⟨groups.length - 1, by omega⟩
  rw [Files.scanSerial, h.serials, hn, if_neg (by simp)]
  exact foldl_serials n (by omega)

theorem Holds.openFile (h : files.Holds groups) {i : Nat} (hi : i < groups.length) :
    files.openFile (serialOf i) = some (serialOf i, 0) := by
  apply if_pos
  rw [h.serials]
  exact ⟨mem_map_of_mem (mem_range.mpr hi), h.canOpen _⟩

theorem Holds.not_mem (h : files.Holds groups) (hlt : groups.length + 1 < 2 ^ 32) :
    serialOf groups.length ∉ files.serials := by
  rw [h.serials]
  intro hmem
  obtain ⟨i, hi, heq⟩ := mem_map.mp hmem
  have hi := mem_range.mp hi
  rw [serialOf_inj (by omega) hlt] at heq
  omega

theorem Holds.serialOf_length (h : files.Holds groups) :
    serialOf (groups.length - 1) + 1 = serialOf groups.length := by
  have hpos := length_pos_iff.mpr h.ne_nil
  rw [serialOf_add_one, Nat.sub_add_cancel hpos]

theorem Holds.length_lt (h : files.Holds groups)
    (hne : serialOf (groups.length - 1) ≠ 0xFFFFFFFF) : groups.length + 1 < 2 ^ 32 := by
  have hbound := h.bound
  have hpos := length_pos_iff.mpr h.ne_nil
  by_contra hge
  apply hne
  rw [← UInt32.toNat_inj, toNat_serialOf (by omega), Nat.sub_add_cancel hpos]
  have : groups.length = 2 ^ 32 - 1 := by omega
  rw [this]
  rfl

theorem deleteFile_of_not_mem {serial : UInt32} (h : serial ∉ files.serials) :
    files.deleteFile serial = files := by
  have hfilter : files.serials.filter (· ≠ serial) = files.serials := by
    rw [filter_eq_self]
    intro s hs
    have hne : s ≠ serial := fun heq => h (heq ▸ hs)
    simpa using hne
  rw [deleteFile, hfilter]

/-- A new file is a new group. -/
theorem Holds.createFile (h : files.Holds groups) (hlt : groups.length + 1 < 2 ^ 32) :
    ∃ files', files.createFile (serialOf groups.length) = (some (serialOf groups.length), files') ∧
      files'.Holds (groups ++ [[]]) := by
  refine ⟨_, if_pos (h.canOpen _), ?_⟩
  refine ⟨by simp, by simpa using hlt, ?_, h.canOpen, ?_, ?_⟩
  · simp only [if_neg (h.not_mem hlt)]
    rw [h.serials, length_append, length_singleton, range_succ, map_append,
      map_singleton]
  · intro i g hg
    rw [List.getElem?_append] at hg
    split at hg
    · rename_i hi
      have hne : serialOf i ≠ serialOf groups.length := by
        rw [Ne, serialOf_inj (by omega) hlt]
        omega
      simpa [hne] using h.content i g hg
    · rename_i hi
      obtain ⟨hi', rfl⟩ : i - groups.length = 0 ∧ [] = g := by
        simpa [List.getElem?_singleton] using hg
      obtain rfl : i = groups.length := by omega
      simp
  · simpa using h.readable

/-- A frame goes to the last group. -/
theorem Holds.append {closed : List (List Body)} {cur : List Body}
    (h : files.Holds (closed ++ [cur])) {b : Body} (hb : b.length < 2 ^ 20) :
    (files.append (serialOf closed.length) b.frame).Holds (closed ++ [cur ++ [b]]) := by
  have hbound := h.bound
  rw [length_append, length_singleton] at hbound
  refine ⟨by simp, by simpa using hbound,
    by simpa [Files.append] using h.serials, h.canOpen, ?_, ?_⟩
  · intro i g hg
    rw [List.getElem?_append] at hg
    split at hg
    · rename_i hi
      have hne : serialOf i ≠ serialOf closed.length := by
        rw [Ne, serialOf_inj (by omega) (by omega)]
        omega
      have hold := h.content i g (by rw [List.getElem?_append_left hi, hg])
      simpa [Files.append, hne] using hold
    · rename_i hi
      obtain ⟨hi', rfl⟩ : i - closed.length = 0 ∧ cur ++ [b] = g := by
        simpa [List.getElem?_singleton] using hg
      obtain rfl : i = closed.length := by omega
      have hold := h.content closed.length cur (by simp)
      simp [Files.append, hold]
  · intro b' hb'
    have hread := h.readable
    simp only [flatten_append, flatten_singleton, mem_append,
      mem_singleton] at hread hb'
    rcases hb' with hmem | hmem | rfl
    · exact hread b' (Or.inl hmem)
    · exact hread b' (Or.inr hmem)
    · exact hb

end Files

/-! ## The reader -/

namespace LogReader

/-- The reader stands between two frames of a file, behind `k` bodies of the log. -/
def At (r : LogReader) (groups : List (List Body)) (k : Nat) : Prop :=
  ∃ before pre rest after, groups = before ++ (pre ++ rest) :: after ∧
    k = before.flatten.length + pre.length ∧
    r.fd = some (serialOf before.length, (pre.flatMap Body.frame).length) ∧
    r.curSerial = serialOf before.length

variable {r : LogReader} {files : Files} {groups : List (List Body)} {k : Nat}

theorem At.append {closed : List (List Body)} {cur : List Body}
    (h : r.At (closed ++ [cur]) k) (b : Body) : r.At (closed ++ [cur ++ [b]]) k := by
  obtain ⟨before, pre, rest, after, hgroups, hk⟩ := h
  rcases eq_nil_or_concat after with rfl | ⟨after, last, rfl⟩
  · obtain ⟨rfl, hcur⟩ := append_inj' hgroups rfl
    obtain rfl : cur = pre ++ rest := by simpa using hcur
    exact ⟨closed, pre, rest ++ [b], [], by simp, hk⟩
  · have hgroups : closed ++ [cur] = (before ++ (pre ++ rest) :: after) ++ [last] := by
      simpa using hgroups
    obtain ⟨rfl, hcur⟩ := append_inj' hgroups rfl
    exact ⟨before, pre, rest, after ++ [cur ++ [b]], by simp, hk⟩

theorem At.new (h : r.At groups k) : r.At (groups ++ [[]]) k := by
  obtain ⟨before, pre, rest, after, hgroups, hk⟩ := h
  exact ⟨before, pre, rest, after ++ [[]], by simp [hgroups], hk⟩

theorem openLog_at (h : files.Holds groups) : (openLog files).At groups 0 := by
  obtain ⟨g, groups', rfl⟩ := exists_cons_of_ne_nil h.ne_nil
  have hfd := h.openFile (i := 0) (by simp)
  refine ⟨[], [], g, groups', by simp, rfl, ?_, ?_⟩
  · rw [openLog, h.scanSerial]
    exact hfd
  · rw [openLog, h.scanSerial]
    rfl

/-- A read at the end of a file with a next file. -/
theorem read_next (h : files.Holds groups) {i : Nat} (hi : i + 1 < groups.length)
    (hfd : r.fd = some (serialOf i, (files.content (serialOf i)).length))
    (hcur : r.curSerial = serialOf i) {n : Nat} (hsize : 0 < n) :
    ∃ r' : LogReader, r.read files n = r'.read files n ∧ r'.fd = some (serialOf (i + 1), 0) ∧
      r'.curSerial = serialOf (i + 1) := by
  have hbound := h.bound
  have hlt : serialOf i < serialOf (groups.length - 1) :=
    (serialOf_lt (by omega) (by omega)).mpr (by omega)
  have hopen : openNext files (serialOf (groups.length - 1)) (serialOf i + 1) =
      (some (serialOf (i + 1), 0), serialOf (i + 1)) := by
    rw [serialOf_add_one, openNext, h.openFile hi]
  refine ⟨⟨some (serialOf (i + 1), 0), 1, serialOf (groups.length - 1), serialOf (i + 1), 0⟩,
    ?_, rfl, rfl⟩
  rw [read, hfd]
  simp only [drop_length, take_nil, length_nil, if_neg hsize.ne, refresh,
    h.scanSerial, hcur, dif_pos hlt]
  split
  · rename_i fd cur hnext
    rw [h.scanSerial, hcur, hopen] at hnext
    cases hnext
    rfl
  · rename_i cur hnext
    rw [h.scanSerial, hcur, hopen] at hnext
    cases hnext

/-- A read at the end of the last file. -/
theorem read_last (h : files.Holds groups) {i : Nat} (hi : i + 1 = groups.length)
    (hfd : r.fd = some (serialOf i, (files.content (serialOf i)).length))
    (hcur : r.curSerial = serialOf i) {size : Nat} (hsize : 0 < size) :
    r.read files size = (none, r.refresh files) := by
  have hlt : ¬serialOf i < serialOf (groups.length - 1) := by
    rw [← hi, Nat.add_sub_cancel]
    exact UInt32.lt_irrefl _
  rw [read, hfd]
  simp only [drop_length, take_nil, length_nil, if_neg hsize.ne, refresh,
    h.scanSerial, hcur, dif_neg hlt, if_true, Nat.add_zero, hfd]

theorem content_of_holds {before after : List (List Body)} {g : List Body}
    (h : files.Holds (before ++ g :: after)) :
    files.content (serialOf before.length) = g.flatMap Body.frame :=
  h.content before.length g (by simp)

/-- A body is left in the file. -/
theorem readBinlog_inside {before after : List (List Body)} {pre rest : List Body} {b : Body}
    (h : files.Holds (before ++ (pre ++ b :: rest) :: after))
    (hfd : r.fd = some (serialOf before.length, (pre.flatMap Body.frame).length))
    (hcur : r.curSerial = serialOf before.length) :
    (readBinlog r files).1 = some b.frame ∧
      (readBinlog r files).2.At (before ++ (pre ++ b :: rest) :: after)
        (before.flatten.length + pre.length + 1) := by
  have hb : b.length < 2 ^ 20 := h.readable b (by simp)
  have hcontent := content_of_holds h
  rw [flatMap_append, flatMap_cons] at hcontent
  rw [readBinlog_frame hb hfd hcontent]
  refine ⟨rfl, before, pre ++ [b], rest, after, by simp, ?_, ?_, hcur⟩
  · rw [length_append, length_singleton, Nat.add_assoc]
  · simp

theorem readBinlog_congr {r' : LogReader} (h : r.read files 4 = r'.read files 4) :
    readBinlog r files = readBinlog r' files := by
  rw [readBinlog, readBinlog, h]

/-- The next read returns the body behind those that were returned, if there is one. -/
theorem readBinlog_at (h : files.Holds groups) (hr : r.At groups k) :
    (readBinlog r files).1 = (groups.flatten[k]?).map Body.frame ∧
      (readBinlog r files).2.At groups (if k < groups.flatten.length then k + 1 else k) := by
  obtain ⟨before, pre, rest, after, rfl, rfl, hfd, hcur⟩ := hr
  -- along the files behind the current one: an empty one is left for the next
  induction after generalizing before pre rest r with
  | nil =>
    cases rest with
    | cons b rest =>
      rw [if_pos (by simp), List.getElem?_eq_getElem (by simp)]
      simpa [getElem_append] using readBinlog_inside h hfd hcur
    | nil =>
      have hend := content_of_holds h
      rw [append_nil] at hend
      rw [← hend] at hfd
      have hread : r.read files 4 = (none, r.refresh files) :=
        read_last h (by simp) hfd hcur (by decide)
      have hnone : readBinlog r files = (none, r.refresh files) := by
        rw [readBinlog, hread]
      rw [hnone, if_neg (by simp), List.getElem?_eq_none (by simp)]
      refine ⟨rfl, before, pre, [], [], rfl, rfl, ?_, hcur⟩
      rw [refresh, hfd, hend]
  | cons g after ih =>
    cases rest with
    | cons b rest =>
      rw [if_pos (by simp), List.getElem?_eq_getElem (by simp)]
      simpa [getElem_append] using readBinlog_inside h hfd hcur
    | nil =>
      have hend := content_of_holds h
      rw [append_nil] at hend
      rw [← hend] at hfd
      obtain ⟨r', hread, hfd', hcur'⟩ := read_next h (by simp) hfd hcur (n := 4) (by decide)
      have hgroups : before ++ (pre ++ []) :: g :: after =
          (before ++ [pre]) ++ ([] ++ g) :: after := by simp
      have hk : before.flatten.length + pre.length =
          (before ++ [pre]).flatten.length + ([] : List Body).length := by
        simp
      rw [readBinlog_congr hread, hk]
      rw [hgroups] at h ⊢
      exact ih (before ++ [pre]) [] g h (by simpa using hfd') (by simpa using hcur')

end LogReader

/-! ## The log as a queue -/

/-- The writer is at the end of the last file and the reader behind the bodies it has returned. -/
structure Log.Queues (log : Log) (q : Queue) (groups : List (List Body)) : Prop where
  holds : log.files.Holds groups
  committed : groups.flatten = q.committed
  fd : log.writer.fd = some (serialOf (groups.length - 1))
  serial : log.writer.curMaxSerial = serialOf (groups.length - 1)
  unread : q.next = none → log.reader.fd = none
  reads : ∀ k ∈ q.next, log.reader.At groups k

namespace Log

variable {log : Log} {q : Queue} {groups : List (List Body)}

theorem createFile_init : (⟨[], fun _ => [], fun _ => true⟩ : Files).createFile 1 =
    (some 1, ⟨[1], fun _ => [], fun _ => true⟩) := by
  have hcontent : Function.update (fun _ : UInt32 => ([] : Bytes)) 1 [] = fun _ => [] := by
    funext serial
    by_cases hs : serial = 1 <;> simp [hs]
  simp [Files.createFile]

theorem init_eq (maxSize totalSize : Nat) : init maxSize totalSize =
    ⟨⟨[1], fun _ => [], fun _ => true⟩,
      { fd := some 1, maxSize, totalSize, curMaxSerial := 1, curMinSerial := 0 }, {}⟩ := by
  rw [init, LogWriter.openLog]
  simp only [Files.scanSerial, if_true]
  rw [show (0 : UInt32) + 1 = 1 from rfl, createFile_init]

theorem queues_init (maxSize totalSize : Nat) : (init maxSize totalSize).Queues {} [[]] := by
  rw [init_eq]
  refine ⟨⟨by simp, by simp, rfl, fun _ => rfl, ?_, by simp⟩, rfl, rfl, rfl, fun _ => rfl, by simp⟩
  intro i g hg
  obtain ⟨rfl, rfl⟩ : i = 0 ∧ [] = g := by simpa [List.getElem?_singleton] using hg
  rfl

theorem queues_initWriter (h : log.Queues q groups) {maxSize totalSize : Nat}
    (hr : log.Readable (.initWriter maxSize totalSize)) :
    (log.step (.initWriter maxSize totalSize)).2.Queues q (groups ++ [[]]) := by
  rw [Readable, h.holds.scanSerial] at hr
  obtain ⟨files', hcreate, hholds⟩ := h.holds.createFile (h.holds.length_lt hr)
  have hserial := h.holds.serialOf_length
  simp only [step, LogWriter.openLog, h.holds.scanSerial, hserial, hcreate]
  exact ⟨hholds, by simp [h.committed], by simp, by simp, h.unread, fun k hk => (h.reads k hk).new⟩

theorem queues_initReader (h : log.Queues q groups) :
    (log.step .initReader).2.Queues { q with next := some 0 } groups := by
  refine ⟨h.holds, h.committed, h.fd, h.serial, nofun, ?_⟩
  intro k hk
  cases hk
  exact LogReader.openLog_at h.holds

theorem queues_commit {b : Body} (h : log.Queues q groups) (hd : log.NoDelete (.commit b))
    (hr : log.Readable (.commit b)) :
    ∃ groups', (log.step (.commit b)).2.Queues
      { q with committed := q.committed ++ [b] } groups' := by
  obtain ⟨hb, hserial⟩ := hr
  obtain ⟨closed, cur, rfl⟩ := (eq_nil_or_concat groups).resolve_left h.holds.ne_nil
  rw [concat_eq_append] at h
  have hfd := h.fd
  have hmax := h.serial
  simp only [length_append, length_singleton, Nat.add_sub_cancel] at hfd hmax
  have happend := h.holds.append hb
  have hcommitted : (closed ++ [cur ++ [b]]).flatten = q.committed ++ [b] := by
    simp [← h.committed]
  have hreads : ∀ k ∈ q.next, log.reader.At (closed ++ [cur ++ [b]]) k := fun k hk =>
    (h.reads k hk).append b
  simp only [step, LogWriter.write, hfd, LogWriter.shiftFile]
  by_cases hshift : log.writer.curSize + b.frame.length < log.writer.maxSize
  · rw [if_pos hshift]
    exact ⟨_, happend, hcommitted, by simp, by simp [hmax], h.unread, hreads⟩
  · rw [if_neg hshift]
    have hshift : log.Shifts b := Nat.le_of_not_lt hshift
    have hne := hserial hshift
    rw [hmax] at hne
    have hkeep : (if log.writer.totalSize ≤ log.writer.total then
        (log.files.append (serialOf closed.length) b.frame).deleteFile log.writer.curMinSerial
        else log.files.append (serialOf closed.length) b.frame) =
        log.files.append (serialOf closed.length) b.frame := by
      split
      · exact Files.deleteFile_of_not_mem (hd hshift ‹_›)
      · rfl
    obtain ⟨files', hcreate, hholds⟩ := happend.createFile (happend.length_lt (by simpa using hne))
    have hnext : log.writer.curMaxSerial + 1 = serialOf (closed ++ [cur ++ [b]]).length := by
      rw [hmax, serialOf_add_one]
      simp
    have htotal : ∀ fd n, LogWriter.total { log.writer with fd, curSize := n } =
        log.writer.total := fun _ _ => rfl
    simp only [htotal, hkeep, hnext, hcreate]
    refine ⟨_, hholds, by simp [← h.committed], by simp, by simp, h.unread, ?_⟩
    exact fun k hk => (hreads k hk).new

def IsQueue (log : Log) (q : Queue) : Prop := ∃ groups, log.Queues q groups

/-- Every operation answers as the queue does. -/
theorem isQueue_step (h : log.IsQueue q) {op : Op} (hd : log.NoDelete op)
    (hr : log.Readable op) :
    (log.step op).1 = (q.step op).1 ∧ (log.step op).2.IsQueue (q.step op).2 := by
  obtain ⟨groups, h⟩ := h
  cases op with
  | initWriter maxSize totalSize => exact ⟨rfl, _, queues_initWriter h hr⟩
  | initReader => exact ⟨rfl, _, queues_initReader h⟩
  | commit b => exact ⟨rfl, queues_commit h hd hr⟩
  | read =>
    cases hnext : q.next with
    | none =>
      have hread : readBinlog log.reader log.files = (none, log.reader) := by
        rw [readBinlog, LogReader.read_of_none (h.unread hnext)]
      simp only [step, Queue.step, hread, hnext, Option.bind_none, Option.map_none]
      exact ⟨trivial, groups, h⟩
    | some k =>
      obtain ⟨hout, hat⟩ := LogReader.readBinlog_at h.holds (h.reads k hnext)
      rw [h.committed] at hout hat
      have hqueues : ∀ next, (∀ k ∈ next, (readBinlog log.reader log.files).2.At groups k) →
          next ≠ none → (log.step .read).2.Queues { q with next } groups := fun next hreads hne =>
        ⟨h.holds, h.committed, h.fd, h.serial, fun hnone => absurd hnone hne, hreads⟩
      cases hb : q.committed[k]? with
      | none =>
        have hge := List.getElem?_eq_none_iff.mp hb
        rw [if_neg (by omega)] at hat
        simp only [Queue.step, hnext, Option.bind_some, hb]
        refine ⟨by simp [step, hout, hb], groups, ?_⟩
        have hq : ({ q with next := some k } : Queue) = q := by rw [← hnext]
        rw [← hq]
        exact hqueues (some k) (by simpa using hat) (Option.some_ne_none k)
      | some b =>
        obtain ⟨hlt, hget⟩ := List.getElem?_eq_some_iff.mp hb
        rw [if_pos hlt] at hat
        have hlen : b.length < 2 ^ 20 := by
          apply h.holds.readable
          rw [h.committed]
          exact mem_of_getElem? hb
        simp only [Queue.step, hnext, Option.bind_some, hb]
        refine ⟨?_, groups, ?_⟩
        · simp only [step, hout, hb, Option.map_some]
          rw [Body.view_frame (by omega)]
        · exact hqueues (some (k + 1)) (by simpa using hat) (Option.some_ne_none (k + 1))

end Log

/-- The reader gets the committed bodies in their order, each once, as long as every body is shorter
than a megabyte, the serials last and no file is deleted. -/
theorem outputs_log (maxSize totalSize : Nat) (ops : List Op)
    (hdelete : AlongRun (fun log op => some (Log.step log op).2) Log.NoDelete
      (Log.init maxSize totalSize) ops)
    (hread : AlongRun (fun log op => some (Log.step log op).2) Log.Readable
      (Log.init maxSize totalSize) ops) :
    outputs Log.step (Log.init maxSize totalSize) ops = outputs Queue.step {} ops := by
  have hinit : (Log.init maxSize totalSize).IsQueue {} := ⟨_, Log.queues_init maxSize totalSize⟩
  refine outputs_eq_along ?_ hinit ops (hdelete.and hread)
  intro log q op h hop
  exact Log.isQueue_step h hop.1 hop.2

/-- A body with two records, and a file for each commit. -/
theorem outputs_log_two :
    outputs Log.step (Log.init 0 1) [.commit ⟨1, 0, 5, [[7], []]⟩, .initReader, .read] =
      [none, none, some ⟨Body.frame ⟨1, 0, 5, [[7], []]⟩, 1, 0, 2, [[7], []]⟩] := by
  have hserial : (Log.init 0 1).writer.curMaxSerial = 1 := rfl
  refine outputs_log 0 1 _ ⟨?_, fun _ _ => ⟨trivial, fun _ _ => ⟨trivial, fun _ _ => trivial⟩⟩⟩
    ⟨⟨by decide, ?_⟩, fun _ _ => ⟨trivial, fun _ _ => ⟨trivial, fun _ _ => trivial⟩⟩⟩
  · intro _ htotal
    exact absurd htotal (by decide)
  · intro _
    rw [hserial]
    decide

/-- A body of a megabyte is accepted by the writer, and the reader fails on it. -/
theorem outputs_long {b : Body} (h : 2 ^ 20 ≤ b.length) (h' : b.length < 2 ^ 32)
    {maxSize : Nat} (hmax : b.length + 4 < maxSize) (totalSize : Nat) :
    outputs Log.step (Log.init maxSize totalSize) [.initReader, .commit b, .read] =
      [none, none, none] := by
  have hopen : LogReader.openLog ⟨[1], fun _ => [], fun _ => true⟩ =
      ⟨some (1, 0), 1, 1, 1, 0⟩ := rfl
  have hwrite : LogWriter.write ⟨some 1, 0, maxSize, totalSize, 1, 0⟩
      ⟨[1], fun _ => [], fun _ => true⟩ b.frame =
      (⟨some 1, 0 + b.frame.length, maxSize, totalSize, 1, 0⟩,
        Files.append ⟨[1], fun _ => [], fun _ => true⟩ 1 b.frame) := by
    have hlt : 0 + b.frame.length < maxSize := by
      rw [Body.length_frame]
      omega
    rw [LogWriter.write, LogWriter.shiftFile]
    exact if_pos hlt
  have hread : (readBinlog ⟨some (1, 0), 1, 1, 1, 0⟩
      (Files.append ⟨[1], fun _ => [], fun _ => true⟩ 1 b.frame)).1 = none := by
    have hcontent : (Files.append ⟨[1], fun _ => [], fun _ => true⟩ 1 b.frame).content 1 =
        [] ++ (b.frame ++ []) := by
      simp [Files.append]
    exact readBinlog_long h h' rfl hcontent
  rw [Log.init_eq]
  simp only [outputs, Log.step, hopen, hwrite, hread, Option.map_none]

/-- A body with one record of `n` bytes. -/
def zeroBody (n : Nat) : Body := ⟨1, 0, 5, [replicate n 0]⟩

theorem length_zeroBody (n : Nat) : (zeroBody n).length = 20 + n := by
  simp only [Body.length, zeroBody, encodeRecord, flatMap_singleton, length_append,
    length_leBytes, length_replicate]
  omega

/-- A body of `2 ^ 20` bytes or more is written and never read. -/
theorem not_outputs_log_zeroBody :
    outputs Log.step (Log.init (2 ^ 30) (2 ^ 30))
        [.initReader, .commit (zeroBody (2 ^ 20)), .read] ≠
      outputs Queue.step {} [.initReader, .commit (zeroBody (2 ^ 20)), .read] := by
  have hlen := length_zeroBody (2 ^ 20)
  rw [outputs_long (by omega) (by omega) (by omega)]
  intro heq
  have hlast := congrArg (fun xs => xs[2]?) heq
  cases hlast

end ISearch.BinLog
