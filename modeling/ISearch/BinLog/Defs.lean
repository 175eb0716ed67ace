import ISearch.Lib.Bytes

/-!
# The log files of the hot backup

`LogBase`, `LogWriter` and `LogReader` of logger.cc. The files of a log are known by their serial
numbers. An open descriptor keeps the file it was opened on: what it reads is the content of that
serial, listed or not.
-/

namespace ISearch.BinLog

abbrev Bytes := List UInt8

structure JournalID where
  serial : UInt32
  offset : UInt32
deriving DecidableEq, Repr

/-- The directory of a log: the serials in the order of `readdir`, what each file holds and whether
`open` succeeds on it. -/
structure Files where
  serials : List UInt32
  content : UInt32 → Bytes
  canOpen : UInt32 → Bool

namespace Files

/-- The smallest and the largest serial of the directory; a file with serial 0 counts for neither.
-/
def scanSerial (files : Files) : UInt32 × UInt32 :=
  if files.serials = [] then (0, 0)
  else files.serials.foldl (fun (lo, hi) v =>
    if 1 ≤ v then (if v < lo then v else lo, if hi < v then v else hi) else (lo, hi))
    (0xFFFFFFFF, 0)

/-- `open_file` for reading: the descriptor and its position. -/
def openFile (files : Files) (serial : UInt32) : Option (UInt32 × Nat) :=
  if serial ∈ files.serials ∧ files.canOpen serial then some (serial, 0) else none

/-- `open_file` for writing creates the file or empties it. -/
def createFile (files : Files) (serial : UInt32) : Option UInt32 × Files :=
  if files.canOpen serial then
    (some serial,
      { files with
        serials := if serial ∈ files.serials then files.serials else files.serials ++ [serial]
        content := Function.update files.content serial [] })
  else (none, files)

def deleteFile (files : Files) (serial : UInt32) : Files :=
  { files with serials := files.serials.filter (· ≠ serial) }

def append (files : Files) (serial : UInt32) (bytes : Bytes) : Files :=
  { files with content := Function.update files.content serial (files.content serial ++ bytes) }

end Files

structure LogWriter where
  fd : Option UInt32 := none
  curSize : Nat := 0
  maxSize : Nat := 0
  totalSize : Nat := 0
  curMaxSerial : UInt32 := 0
  curMinSerial : UInt32 := 0

namespace LogWriter

/-- The file after the last one of the directory is opened: a writer never continues a file. -/
def openLog (files : Files) (maxSize totalSize : Nat) : LogWriter × Files :=
  let (minSerial, maxSerial) := files.scanSerial
  let (fd, files) := files.createFile (maxSerial + 1)
  ({ fd, maxSize, totalSize, curMaxSerial := maxSerial + 1, curMinSerial := minSerial }, files)

/-- The size that the files are taken to have, in the 64 bits of the code. -/
def total (w : LogWriter) : Nat := (w.curMaxSerial - w.curMinSerial).toNat * w.maxSize % 2 ^ 64

def shiftFile (w : LogWriter) (files : Files) : LogWriter × Files :=
  if w.curSize < w.maxSize then (w, files)
  else
    let needDelete := w.totalSize ≤ w.total
    let files := if needDelete then files.deleteFile w.curMinSerial else files
    let minSerial := if needDelete then w.curMinSerial + 1 else w.curMinSerial
    let (fd, files) := files.createFile (w.curMaxSerial + 1)
    ({ w with
        fd, curSize := 0, curMaxSerial := w.curMaxSerial + 1, curMinSerial := minSerial }, files)

/-- A short write is only logged, and `_cur_size` grows all the same. -/
def write (w : LogWriter) (files : Files) (bytes : Bytes) : LogWriter × Files :=
  let files := match w.fd with
    | some serial => files.append serial bytes
    | none => files
  { w with curSize := w.curSize + bytes.length }.shiftFile files

end LogWriter

/-! ## The reader -/

structure LogReader where
  fd : Option (UInt32 × Nat) := none
  minSerial : UInt32 := 0
  maxSerial : UInt32 := 0
  curSerial : UInt32 := 0
  curOffset : Nat := 0
deriving DecidableEq

namespace LogReader

def refresh (r : LogReader) (files : Files) : LogReader :=
  { r with minSerial := files.scanSerial.1, maxSerial := files.scanSerial.2 }

def openLog (files : Files) : LogReader :=
  let minSerial := files.scanSerial.1
  { fd := files.openFile minSerial
    minSerial, maxSerial := files.scanSerial.2, curSerial := minSerial, curOffset := 0 }

/-- What `stat_size` leaves in a size that was zero: `fstat` fails without a file. -/
def statSize (r : LogReader) (files : Files) : Nat :=
  match r.fd with
  | some (serial, _) => (files.content serial).length
  | none => 0

/-- The descriptor changes before the offset is checked, `_cur_serial` only after it. -/
def seek (r : LogReader) (files : Files) (v : JournalID) : Bool × LogReader :=
  if v.serial ∉ files.serials then (false, r)
  else
    let r' := if v.serial = r.curSerial then r else { r with fd := files.openFile v.serial }
    if v.serial ≠ r.curSerial ∧ r'.fd = none then (false, r')
    else if r'.statSize files % 2 ^ 32 < v.offset.toNat then (false, r')
    else
      (true, { r' with
        fd := r'.fd.map fun (serial, _) => (serial, v.offset.toNat)
        curSerial := v.serial, curOffset := v.offset.toNat })

theorem toNat_add_one {a b : UInt32} (h : a < b) : (a + 1).toNat = a.toNat + 1 := by
  have hlt := UInt32.lt_iff_toNat_lt.mp h
  have hb := b.toNat_lt
  rw [UInt32.toNat_add, UInt32.toNat_one, Nat.mod_eq_of_lt (by omega)]

/-- The loop that skips the serials without a file. -/
def openNext (files : Files) (last cur : UInt32) : Option (UInt32 × Nat) × UInt32 :=
  match files.openFile cur with
  | some fd => (some fd, cur)
  | none => if cur < last then openNext files last (cur + 1) else (none, cur)
termination_by last.toNat - cur.toNat
decreasing_by
  rename_i h
  have hlt := UInt32.lt_iff_toNat_lt.mp h
  have hadd := toNat_add_one h
  omega

theorem le_openNext {files : Files} {last cur : UInt32} (h : cur ≤ last) :
    cur.toNat ≤ (openNext files last cur).2.toNat := by
  induction cur using openNext.induct files last with
  | case1 cur fd hopen => simp [openNext, hopen]
  | case2 cur hopen hlt ih =>
    have hadd := toNat_add_one hlt
    have hle : cur + 1 ≤ last := by
      rw [UInt32.le_iff_toNat_le, hadd]
      exact UInt32.lt_iff_toNat_lt.mp hlt
    have ih := ih hle
    rw [openNext, hopen]
    simp only [if_pos hlt]
    omega
  | case3 cur hopen hlt => simp [openNext, hopen, hlt]

/-- A short read moves on to the next file; in the last file the position is put back. -/
def read (r : LogReader) (files : Files) (size : Nat) : Option Bytes × LogReader :=
  match r.fd with
  | none => (none, r)
  | some (serial, pos) =>
    let bytes := ((files.content serial).drop pos).take size
    if bytes.length = size then
      (some bytes,
        { r with fd := some (serial, pos + size), curOffset := r.curOffset + size })
    else
      let r' := { r with fd := some (serial, pos + bytes.length) }.refresh files
      if hlt : r'.curSerial < r'.maxSerial then
        match hnext : openNext files r'.maxSerial (r'.curSerial + 1) with
        | (some fd, cur) =>
          { r' with fd := some fd, curSerial := cur, curOffset := 0 }.read files size
        | (none, cur) => (none, { r' with fd := none, curSerial := cur, curOffset := 0 })
      else if bytes = [] then (none, r')
      else (none, (r'.seek files ⟨r'.curSerial, UInt32.ofNat r'.curOffset⟩).2)
termination_by files.scanSerial.2.toNat - r.curSerial.toNat
decreasing_by
  change r.curSerial < files.scanSerial.2 at hlt
  have hadd := toNat_add_one hlt
  have hlt' := UInt32.lt_iff_toNat_lt.mp hlt
  have hle : r.curSerial + 1 ≤ files.scanSerial.2 := by
    rw [UInt32.le_iff_toNat_le, hadd]
    exact hlt'
  change openNext files files.scanSerial.2 (r.curSerial + 1) = (some fd, cur) at hnext
  have hcur : (r.curSerial + 1).toNat ≤
      (openNext files files.scanSerial.2 (r.curSerial + 1)).2.toNat := le_openNext hle
  rw [hnext] at hcur
  change (r.curSerial + 1).toNat ≤ cur.toNat at hcur
  omega

theorem read_of_none {r : LogReader} (h : r.fd = none) (files : Files) (size : Nat) :
    r.read files size = (none, r) := by
  rw [read, h]

theorem read_of_le {r : LogReader} {files : Files} {serial : UInt32} {pos size : Nat}
    (hfd : r.fd = some (serial, pos)) (h : pos + size ≤ (files.content serial).length) :
    r.read files size = (some (((files.content serial).drop pos).take size),
      { r with fd := some (serial, pos + size), curOffset := r.curOffset + size }) := by
  have hlen : (((files.content serial).drop pos).take size).length = size := by
    rw [List.length_take_of_le]
    rw [List.length_drop]
    omega
  rw [read, hfd]
  exact if_pos hlen

end LogReader

end ISearch.BinLog
