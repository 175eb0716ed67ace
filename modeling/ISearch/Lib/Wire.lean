import ISearch.Lib.Bytes

/-!
# Reading a byte stream

A reader takes a value from the front of the bytes that are left; `none` is a read past their end.
`Inverts read enc x` says that the reader gets `x` back from what was written for it, whatever
follows; lists that are written one element after the other are read back element by element.
-/

namespace ISearch

abbrev Reader (α : Type) := List UInt8 → Option (α × List UInt8)

variable {α : Type}

def readBytes (n : Nat) : Reader (List UInt8) := fun bs =>
  if n ≤ bs.length then some (bs.take n, bs.drop n) else none

/-- A little-endian number of `n` bytes. -/
def readLe (n : Nat) : Reader Nat := fun bs =>
  (readBytes n bs).map fun (b, rest) => (ofLeBytes b, rest)

def readList (read : Reader α) : Nat → Reader (List α)
  | 0, bs => some ([], bs)
  | n + 1, bs => do
    let (x, rest) ← read bs
    let (xs, rest) ← readList read n rest
    return (x :: xs, rest)

def Inverts (read : Reader α) (enc : α → List UInt8) (x : α) : Prop :=
  ∀ rest, read (enc x ++ rest) = some (x, rest)

@[simp] theorem readBytes_append (bs rest : List UInt8) :
    readBytes bs.length (bs ++ rest) = some (bs, rest) := by
  simp [readBytes]

theorem readLe_leBytes (n v : Nat) (rest : List UInt8) :
    readLe n (leBytes n v ++ rest) = some (v % 256 ^ n, rest) := by
  have h := readBytes_append (leBytes n v) rest
  rw [length_leBytes] at h
  rw [readLe, h, ← ofLeBytes_leBytes]
  rfl

theorem readLe_leBytes_of_lt {n v : Nat} (hv : v < 256 ^ n) (rest : List UInt8) :
    readLe n (leBytes n v ++ rest) = some (v, rest) := by
  rw [readLe_leBytes, Nat.mod_eq_of_lt hv]

theorem lt_of_readLe {n v : Nat} {bs rest : List UInt8} (h : readLe n bs = some (v, rest)) :
    v < 256 ^ n := by
  rw [readLe, readBytes] at h
  split at h
  · rename_i hle
    cases h
    have hlt := ofLeBytes_lt (bs.take n)
    rwa [List.length_take_of_le hle] at hlt
  · cases h

theorem readList_flatMap {read : Reader α} {enc : α → List UInt8} {xs : List α}
    (h : ∀ x ∈ xs, Inverts read enc x) (rest : List UInt8) :
    readList read xs.length (xs.flatMap enc ++ rest) = some (xs, rest) := by
  induction xs with
  | nil => rfl
  | cons x xs ih =>
    have hx := h x List.mem_cons_self (xs.flatMap enc ++ rest)
    rw [List.flatMap_cons, List.append_assoc, List.length_cons, readList, hx]
    simp only [Option.bind_eq_bind, Option.bind_some]
    rw [ih fun y hy => h y (List.mem_cons_of_mem x hy)]
    rfl

theorem length_of_readList {read : Reader α} {n : Nat} {bs rest : List UInt8} {xs : List α}
    (h : readList read n bs = some (xs, rest)) : xs.length = n := by
  induction n generalizing bs xs with
  | zero =>
    cases h
    rfl
  | succ n ih =>
    rw [readList] at h
    obtain ⟨⟨x, bs₁⟩, -, h⟩ := Option.bind_eq_some_iff.mp h
    obtain ⟨⟨xs', bs₂⟩, hxs, h⟩ := Option.bind_eq_some_iff.mp h
    cases h
    rw [List.length_cons, ih hxs]

end ISearch
