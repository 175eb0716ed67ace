import Mathlib.Data.List.Basic

/-!
# The T-tree of the tree index (`t_tree.cc`)

A node stores up to `pageSize` record handles in an array and two child handles. Handles are
followed, never compared, so a node is modelled as the tree it denotes; `INVALID_HANDLE` is
`TtreeNode.nil` and `m_ushNItems` is the length of the item list. Every function returns what the
C++ function returns together with the memory it leaves behind, so a failing call is seen with
the nodes it has already written. `none` stands for following an invalid handle (and, in
`insert`, for spent fuel).

`pfComp` is the comparator argument. It returns an `int64_t`; most uses store the result in an
`int` first (`iDiff`), the item loop of `Delete` compares the 64-bit result itself.
-/

namespace ISearch.TTree

/-- Records per node. -/
def pageSize : Nat := 20

/-- Minimal number of items in an internal node. -/
def minItems : Nat := pageSize - 2

/-- `_TtreeNode`, as the tree reachable from it. -/
inductive TtreeNode (R : Type) where
  | nil : TtreeNode R
  | node (hLeft hRight : TtreeNode R) (chBalance : Int) (ahItems : List R) : TtreeNode R
  deriving Repr, DecidableEq

/-- What a call leaves: its return value, the node handle, and the flag passed by reference. -/
structure Out (R : Type) where
  iRet : Int
  hNode : TtreeNode R
  flag : Bool
  deriving Repr, DecidableEq

variable {K R : Type}

namespace TtreeNode

def isNil : TtreeNode R → Bool
  | nil => true
  | node .. => false

/-- `Alloc`: a fresh leaf holding one record. -/
def alloc (hRecord : R) : TtreeNode R := .node .nil .nil 0 [hRecord]

/-- `m_ahItems[0]` of the leftmost node below, `m_ahItems[m_ushNItems - 1]` of the rightmost. -/
def leftmost? : TtreeNode R → Option R
  | nil => none
  | node .nil _ _ ahItems => ahItems.head?
  | node hLeft _ _ _ => hLeft.leftmost?

def rightmost? : TtreeNode R → Option R
  | nil => none
  | node _ .nil _ ahItems => ahItems.getLast?
  | node _ hRight _ _ => hRight.rightmost?

end TtreeNode

/-- The comparator result as the `int` variables of `Insert`, `Delete` and `Find` hold it. -/
def iDiff (pfComp : K → R → Int64) (pchKey : K) (hRecord : R) : Int32 :=
  (pfComp pchKey hRecord).toInt32

/-- The binary search of `Insert` and `Find` over `m_ahItems[iLeft .. iRight)`: the index of an
equal item, or the index the search stops at. -/
def binSearch (pfComp : K → R → Int64) (pchKey : K) (ahItems : List R)
    (iLeft iRight : Nat) : Option (Nat ⊕ Nat) :=
  if _h : iLeft < iRight then
    let i := (iLeft + iRight) / 2
    match ahItems[i]? with
    | none => none
    | some hItem =>
      if iDiff pfComp pchKey hItem = 0 then some (.inl i)
      else if iDiff pfComp pchKey hItem > 0 then binSearch pfComp pchKey ahItems (i + 1) iRight
      else binSearch pfComp pchKey ahItems iLeft i
  else some (.inr iRight)
termination_by iRight - iLeft

namespace TtreeNode

/-! ## Insertion -/

/-- The tail of `Insert` after the left subtree grew. -/
def insertGrewLeft (hLeft hRight : TtreeNode R) (chBalance : Int) (ahItems : List R)
    (isAllocNode : Bool) : Option (Out R) :=
  if chBalance > 0 then some ⟨0, .node hLeft hRight 0 ahItems, isAllocNode⟩
  else if chBalance = 0 then some ⟨1, .node hLeft hRight (-1) ahItems, isAllocNode⟩
  else match hLeft with
    | nil => none
    | node ll lr lb lItems =>
      if lb < 0 then
        -- single LL turn
        some ⟨0, .node ll (.node lr hRight 0 ahItems) 0 lItems, isAllocNode⟩
      else match lr with
        | nil => none
        | node lrl lrr lrb lrItems =>
          -- double LR turn
          some ⟨0, .node (.node ll lrl (if lrb > 0 then -1 else 0) lItems)
            (.node lrr hRight (if lrb < 0 then 1 else 0) ahItems) 0 lrItems, isAllocNode⟩

/-- The tail of `Insert` after the right subtree grew. -/
def insertGrewRight (hLeft hRight : TtreeNode R) (chBalance : Int) (ahItems : List R)
    (isAllocNode : Bool) : Option (Out R) :=
  if chBalance < 0 then some ⟨0, .node hLeft hRight 0 ahItems, isAllocNode⟩
  else if chBalance = 0 then some ⟨1, .node hLeft hRight 1 ahItems, isAllocNode⟩
  else match hRight with
    | nil => none
    | node rl rr rb rItems =>
      if rb > 0 then
        -- single RR turn
        some ⟨0, .node (.node hLeft rl 0 ahItems) rr 0 rItems, isAllocNode⟩
      else match rl with
        | nil => none
        | node rll rlr rlb rlItems =>
          -- double RL turn
          some ⟨0, .node (.node hLeft rll (if rlb > 0 then -1 else 0) ahItems)
            (.node rlr rr (if rlb < 0 then 1 else 0) rItems) 0 rlItems, isAllocNode⟩

/-- `Insert`. `convert` reads the key out of a record (`convert_cvalue`) and `canAlloc` is the
outcome of `Alloc`, which one call reaches at most once. The re-insertion of an evicted item
calls `Insert` on the same node again, hence the fuel. -/
def insert (pfComp : K → R → Int64) (convert : R → K) (canAlloc : Bool) :
    Nat → K → R → TtreeNode R → Bool → Option (Out R)
  | 0, _, _, _, _ => none
  | _ + 1, _, _, nil, _ => none
  | fuel + 1, pchKey, hRecord, node hLeft hRight chBalance ahItems, isAllocNode =>
    match ahItems.head?, ahItems.getLast? with
    | some first, some last =>
      if iDiff pfComp pchKey first = 0 then
        some ⟨-2, .node hLeft hRight chBalance ahItems, isAllocNode⟩
      else if iDiff pfComp pchKey first ≤ 0 then
        if hLeft.isNil && ahItems.length < pageSize then
          some ⟨0, .node hLeft hRight chBalance (hRecord :: ahItems), isAllocNode⟩
        else if hLeft.isNil then
          if canAlloc then insertGrewLeft (alloc hRecord) hRight chBalance ahItems true
          else some ⟨-1, .node hLeft hRight chBalance ahItems, isAllocNode⟩
        else do
          let o ← insert pfComp convert canAlloc fuel pchKey hRecord hLeft isAllocNode
          if o.iRet < 0 ∨ o.iRet = 0 then
            some ⟨o.iRet, .node o.hNode hRight chBalance ahItems, o.flag⟩
          else insertGrewLeft o.hNode hRight chBalance ahItems o.flag
      else if iDiff pfComp pchKey last = 0 then
        some ⟨-2, .node hLeft hRight chBalance ahItems, isAllocNode⟩
      else if iDiff pfComp pchKey last ≥ 0 then
        if hRight.isNil && ahItems.length < pageSize then
          some ⟨0, .node hLeft hRight chBalance (ahItems ++ [hRecord]), isAllocNode⟩
        else if hRight.isNil then
          if canAlloc then insertGrewRight hLeft (alloc hRecord) chBalance ahItems true
          else some ⟨-1, .node hLeft hRight chBalance ahItems, isAllocNode⟩
        else do
          let o ← insert pfComp convert canAlloc fuel pchKey hRecord hRight isAllocNode
          if o.iRet < 0 ∨ o.iRet = 0 then
            some ⟨o.iRet, .node hLeft o.hNode chBalance ahItems, o.flag⟩
          else insertGrewRight hLeft o.hNode chBalance ahItems o.flag
      else do
        match ← binSearch pfComp pchKey ahItems 1 (ahItems.length - 1) with
        | .inl _ => some ⟨-2, .node hLeft hRight chBalance ahItems, isAllocNode⟩
        | .inr iRight =>
          if ahItems.length < pageSize then
            some ⟨0, .node hLeft hRight chBalance (ahItems.insertIdx iRight hRecord),
              isAllocNode⟩
          else
            -- the node is full: one end of the page makes room and is inserted again
            let hReInsert := if chBalance ≥ 0 then first else last
            let page := if chBalance ≥ 0 then ahItems.tail.insertIdx (iRight - 1) hRecord
              else ahItems.dropLast.insertIdx iRight hRecord
            let o ← insert pfComp convert canAlloc fuel (convert hReInsert) hReInsert
              (.node hLeft hRight chBalance page) isAllocNode
            if o.iRet < 0 then
              -- `memcpy` of the backup into the page of `pstNode`
              match o.hNode with
              | nil => none
              | node hLeft' hRight' chBalance' _ =>
                some ⟨o.iRet, .node hLeft' hRight' chBalance' ahItems, o.flag⟩
            else some o
    | _, _ => none

/-! ## Deletion -/

/-- `balance_left_branch`: the left subtree lost a level. -/
def balanceLeftBranch (hLeft hRight : TtreeNode R) (chBalance : Int) (ahItems : List R)
    (isFreeNode : Bool) : Option (Out R) :=
  if chBalance < 0 then some ⟨1, .node hLeft hRight 0 ahItems, isFreeNode⟩
  else if chBalance = 0 then some ⟨0, .node hLeft hRight 1 ahItems, isFreeNode⟩
  else match hRight with
    | nil => none
    | node rl rr rb rItems =>
      if rb ≥ 0 then
        -- single RR turn
        if rb = 0 then some ⟨0, .node (.node hLeft rl 1 ahItems) rr (-1) rItems, isFreeNode⟩
        else some ⟨1, .node (.node hLeft rl 0 ahItems) rr 0 rItems, isFreeNode⟩
      else match rl with
        | nil => none
        | node rll rlr rlb rlItems =>
          -- double RL turn
          some ⟨1, .node (.node hLeft rll (if rlb > 0 then -1 else 0) ahItems)
            (.node rlr rr (if rlb < 0 then 1 else 0) rItems) 0 rlItems, isFreeNode⟩

/-- `balance_right_branch`: the right subtree lost a level. -/
def balanceRightBranch (hLeft hRight : TtreeNode R) (chBalance : Int) (ahItems : List R)
    (isFreeNode : Bool) : Option (Out R) :=
  if chBalance > 0 then some ⟨1, .node hLeft hRight 0 ahItems, isFreeNode⟩
  else if chBalance = 0 then some ⟨0, .node hLeft hRight (-1) ahItems, isFreeNode⟩
  else match hLeft with
    | nil => none
    | node ll lr lb lItems =>
      if lb ≤ 0 then
        -- single LL turn
        if lb = 0 then some ⟨0, .node ll (.node lr hRight (-1) ahItems) 1 lItems, isFreeNode⟩
        else some ⟨1, .node ll (.node lr hRight 0 ahItems) 0 lItems, isFreeNode⟩
      else match lr with
        | nil => none
        | node lrl lrr lrb lrItems =>
          -- double LR turn
          some ⟨1, .node (.node ll lrl (if lrb > 0 then -1 else 0) lItems)
            (.node lrr hRight (if lrb < 0 then 1 else 0) ahItems) 0 lrItems, isFreeNode⟩

/-- `Delete` once the item at index `i` of the page compares equal. `rec` is `Delete`, called to
take the borrowed neighbour out of a subtree. -/
def deleteItem (rec : TtreeNode R → K → Bool → Option (Out R)) (convert : R → K)
    (hLeft hRight : TtreeNode R) (chBalance : Int) (ahItems : List R) (i : Nat)
    (isFreeNode : Bool) : Option (Out R) :=
  if ahItems.length = 1 ∧ hRight.isNil then some ⟨1, hLeft, isFreeNode⟩
  else if ahItems.length = 1 ∧ hLeft.isNil then some ⟨1, hRight, isFreeNode⟩
  else
    let isFreeNode' := if ahItems.length = 1 then true else isFreeNode
    if ahItems.length ≤ minItems ∧ hLeft.isNil = false ∧ chBalance ≤ 0 then do
      let borrowed ← hLeft.rightmost?
      let o ← rec hLeft (convert borrowed) isFreeNode'
      let page := borrowed :: ahItems.eraseIdx i
      if o.iRet > 0 then balanceLeftBranch o.hNode hRight chBalance page o.flag
      else some ⟨o.iRet, .node o.hNode hRight chBalance page, o.flag⟩
    else if ahItems.length ≤ minItems ∧ hRight.isNil = false then do
      let borrowed ← hRight.leftmost?
      let o ← rec hRight (convert borrowed) isFreeNode'
      let page := ahItems.eraseIdx i ++ [borrowed]
      if o.iRet > 0 then balanceRightBranch hLeft o.hNode chBalance page o.flag
      else some ⟨o.iRet, .node hLeft o.hNode chBalance page, o.flag⟩
    else some ⟨0, .node hLeft hRight chBalance (ahItems.eraseIdx i), isFreeNode'⟩

/-- `Delete` after the left subtree: the item loop, then the right subtree. The loop compares the
64-bit result of the comparator. -/
def deleteRest (rec : TtreeNode R → K → Bool → Option (Out R)) (pfComp : K → R → Int64)
    (convert : R → K) (pchKey : K) (last : R) (hLeft hRight : TtreeNode R) (chBalance : Int)
    (ahItems : List R) (isFreeNode : Bool) : Option (Out R) :=
  let here := if iDiff pfComp pchKey last ≤ 0 then
      ahItems.findIdx? (fun hItem => pfComp pchKey hItem = 0) else none
  match here with
  | some i => deleteItem rec convert hLeft hRight chBalance ahItems i isFreeNode
  | none =>
    if hRight.isNil = false then do
      let o ← rec hRight pchKey isFreeNode
      if o.iRet > 0 then balanceRightBranch hLeft o.hNode chBalance ahItems o.flag
      else some ⟨o.iRet, .node hLeft o.hNode chBalance ahItems, o.flag⟩
    else some ⟨-1, .node hLeft hRight chBalance ahItems, isFreeNode⟩

/-- `Delete`. The child handle is read again after a failed search below it, hence the fuel. -/
def delete (pfComp : K → R → Int64) (convert : R → K) :
    Nat → TtreeNode R → K → Bool → Option (Out R)
  | 0, _, _, _ => none
  | _ + 1, nil, _, _ => none
  | fuel + 1, node hLeft hRight chBalance ahItems, pchKey, isFreeNode =>
    match ahItems.head?, ahItems.getLast? with
    | some first, some last =>
      if iDiff pfComp pchKey first < 0 ∧ hLeft.isNil = false then do
        let o ← delete pfComp convert fuel hLeft pchKey isFreeNode
        if o.iRet < -1 ∨ o.iRet = 0 then
          some ⟨o.iRet, .node o.hNode hRight chBalance ahItems, o.flag⟩
        else if o.iRet > 0 then balanceLeftBranch o.hNode hRight chBalance ahItems o.flag
        else
          -- not found below: fall through to the node itself
          deleteRest (delete pfComp convert fuel) pfComp convert pchKey last o.hNode hRight
            chBalance ahItems o.flag
      else
        deleteRest (delete pfComp convert fuel) pfComp convert pchKey last hLeft hRight chBalance
          ahItems isFreeNode
    | _, _ => none

/-- `Find`: the record whose key compares equal. -/
def find (pfComp : K → R → Int64) : TtreeNode R → K → Option R
  | nil, _ => none
  | node hLeft hRight _ ahItems, pchKey =>
    match ahItems.head?, ahItems.getLast? with
    | some first, some last =>
      if iDiff pfComp pchKey first = 0 then some first
      else if iDiff pfComp pchKey first > 0 then
        if iDiff pfComp pchKey last = 0 then some last
        else if iDiff pfComp pchKey last > 0 then hRight.find pfComp pchKey
        else match binSearch pfComp pchKey ahItems 1 (ahItems.length - 1) with
          | some (.inl i) => ahItems[i]?
          | _ => none
      else hLeft.find pfComp pchKey
    | _, _ => none

end TtreeNode

namespace TtreeNode

/-- The number of levels below a handle. -/
def height : TtreeNode R → Nat
  | nil => 0
  | node hLeft hRight _ _ => max hLeft.height hRight.height + 1

end TtreeNode

/-- Return codes of `Ttree::Insert`. -/
def ecNoMem : Int := 2041
def ecKeyExist : Int := 2042

/-- `Ttree::Insert` on the root handle: the return code and the new root. -/
def Ttree.insert (pfComp : K → R → Int64) (convert : R → K) (canAlloc : Bool)
    (hRoot : TtreeNode R) (pchKey : K) (hRecord : R) : Option (Int × TtreeNode R) :=
  if hRoot.isNil then
    if canAlloc then some (0, .alloc hRecord) else some (ecNoMem, hRoot)
  else do
    let o ← TtreeNode.insert pfComp convert canAlloc (2 * hRoot.height) pchKey hRecord hRoot false
    if o.iRet = -2 then return (ecKeyExist, o.hNode)
    else if o.iRet = -1 then return (ecNoMem, o.hNode)
    else if o.iRet < 0 then return (-1, o.hNode)
    else return (0, o.hNode)

/-- `Ttree::Delete` on the root handle: the return code and the new root. -/
def Ttree.delete (pfComp : K → R → Int64) (convert : R → K)
    (hRoot : TtreeNode R) (pchKey : K) : Option (Int × TtreeNode R) :=
  if hRoot.isNil then some (0, hRoot)
  else do
    let o ← TtreeNode.delete pfComp convert hRoot.height hRoot pchKey false
    if o.iRet < 0 then return (-1, o.hNode) else return (0, o.hNode)

/-- `Ttree::Find`. -/
def Ttree.find (pfComp : K → R → Int64) (hRoot : TtreeNode R) (pchKey : K) : Option R :=
  hRoot.find pfComp pchKey

end ISearch.TTree
