import Mathlib.Data.List.Perm.Basic
import Mathlib.Data.List.Nodup
import Mathlib.Order.Nat

/-!
# The cache of index lookups

`CCacheList` keeps slots on the chains of a hash table and on a list by age. A lookup compares as
many bytes as the key it looks for has with the zero padded key of a slot: a slot is found for every
prefix of its key in the same bucket. A key that is found when it is added keeps its old value.
-/

namespace ISearch.CacheList

open Function List

abbrev Bytes := List UInt8

abbrev Handle := Nat

/-- `MAX_HASH_DEPTH` and `MAX_KEY_LENGTH`. -/
def maxHashDepth : Nat := 65535
def maxKeyLength : Nat := 128

/-- A key in the buffer of a slot. -/
def padKey (key : Bytes) : Bytes := key ++ replicate (maxKeyLength - key.length) 0

/-- A slot; `vsize` is the length of the value. -/
structure Blslot where
  ksize : Nat
  expired : UInt32
  key : Bytes
  value : Bytes

/-- The handles on a chain and on the time list stand for the links of the slots. -/
structure State where
  slot : Handle → Blslot
  next : Handle
  hashList : Nat → List Handle
  timeList : List Handle
  currentBlslotCount : UInt32
  maxBlslotCount : UInt32
  blslotExpiredTime : UInt32

def initList (max expired : UInt32) : State where
  slot _ := ⟨0, 0, [], []⟩
  next := 0
  hashList _ := []
  timeList := []
  currentBlslotCount := 0
  maxBlslotCount := if max < 1000000 then max else 1000000
  blslotExpiredTime := expired

/-- `key_compare` of keys of variable length. -/
def keyCompare (a b : Bytes) (len : Nat) : Bool := a.take len = b.take len

def keyHash (key : Bytes) : UInt32 := key.foldl (fun hash c => hash * 101 + c.toUInt32) 0x123

variable (hash : Bytes → UInt32)

/-- The bucket of a key. -/
def bucket (key : Bytes) : Nat := (hash key).toNat % maxHashDepth

/-- The first slot on the chain that compares equal. -/
def lookup (s : State) (key : Bytes) : Option Handle :=
  (s.hashList (bucket hash key)).find? fun h => keyCompare key (s.slot h).key key.length

/-- `add_list` at the time `now`: what it returns, and the list. -/
def addList (s : State) (key value : Bytes) (now : UInt32) (alloc : Bool) : Int × State :=
  if maxKeyLength ≤ key.length then (-1, s)
  else
    match lookup hash s key with
    | some h =>
      (0, { s with
        slot := update s.slot h { s.slot h with
          ksize := key.length, expired := now + s.blslotExpiredTime }
        timeList := s.timeList.erase h ++ [h] })
    | none =>
      if s.maxBlslotCount ≤ s.currentBlslotCount then (-1, s)
      else if alloc = false then (-1, s)
      else
        let b := bucket hash key
        (0, { s with
          slot := update s.slot s.next
            ⟨key.length, now + s.blslotExpiredTime, padKey key, value⟩
          next := s.next + 1
          hashList := update s.hashList b (s.next :: s.hashList b)
          timeList := s.timeList ++ [s.next]
          currentBlslotCount := s.currentBlslotCount + 1 })

/-- `in_list`: the value of a hit. -/
def inList (s : State) (key : Bytes) : Option Bytes :=
  if maxKeyLength ≤ key.length then none
  else (lookup hash s key).map fun h => (s.slot h).value

/-- `list_del` and `hlist_del` of the oldest slot. -/
def deleteOldest (s : State) (h : Handle) (rest : List Handle) : State :=
  { s with
    hashList := fun b => (s.hashList b).erase h
    timeList := rest
    currentBlslotCount := s.currentBlslotCount - 1 }

/-- The loop of `try_expired_list` over the slots on the time list. -/
def expireLoop (now : UInt32) : List Handle → State → State
  | [], s => s
  | h :: rest, s =>
    if now < (s.slot h).expired then s else expireLoop now rest (deleteOldest s h rest)

/-- `try_expired_list` at the time `now`. -/
def tryExpiredList (s : State) (now : UInt32) : State := expireLoop now s.timeList s

/-! ## Runs -/

inductive Op where
  | addList (key value : Bytes) (now : UInt32) (alloc : Bool)
  | inList (key : Bytes)
  | tryExpiredList (now : UInt32)

def call (s : State) : Op → State
  | .addList key value now alloc => (addList hash s key value now alloc).2
  | .inList _ => s
  | .tryExpiredList now => tryExpiredList s now

/-- The values of the most recent successful calls of `add_list`, key by key. -/
def record (s : State) (added : Bytes → Option Bytes) : Op → Bytes → Option Bytes
  | .addList key value now alloc =>
    if (addList hash s key value now alloc).1 = 0 then update added key (some value)
    else added
  | _ => added

/-- The key of a slot. -/
def Blslot.storedKey (slot : Blslot) : Bytes := slot.key.take slot.ksize

/-- The state is a map, and the next call hits where a map does. -/
structure IsMap (s : State) (added : Bytes → Option Bytes) : Prop where
  unique : ∀ h ∈ s.timeList, ∀ g ∈ s.timeList,
    (s.slot h).storedKey = (s.slot g).storedKey → h = g
  count : s.currentBlslotCount.toNat = s.timeList.length
  chains : ((List.range maxHashDepth).flatMap s.hashList).Perm s.timeList

/-- The result of a call. -/
def HitsRight (s : State) (added : Bytes → Option Bytes) : Op → Prop
  | .inList key => ∀ value, inList hash s key = some value → added key = some value
  | _ => True

/-- Every state of a run is a map, and every hit of the run returns the last value added. -/
def RunsAsMap (s : State) (added : Bytes → Option Bytes) : List Op → Prop
  | [] => IsMap s added
  | op :: ops => IsMap s added ∧ HitsRight hash s added op ∧
    RunsAsMap (call hash s op) (record hash s added op) ops

/-- A slot that compares equal to the key of a call holds exactly this key, and for `add_list` the
same value. -/
def Meets (s : State) : Op → Prop
  | .addList key value _ _ => ∀ h ∈ lookup hash s key,
    (s.slot h).storedKey = key ∧ (s.slot h).value = value
  | .inList key => ∀ h ∈ lookup hash s key, (s.slot h).storedKey = key
  | .tryExpiredList _ => True

instance Meets.decidable (s : State) : (op : Op) → Decidable (Meets hash s op)
  | .addList key value _ _ => inferInstanceAs (Decidable (∀ h ∈ lookup hash s key,
    (s.slot h).storedKey = key ∧ (s.slot h).value = value))
  | .inList key =>
    inferInstanceAs (Decidable (∀ h ∈ lookup hash s key, (s.slot h).storedKey = key))
  | .tryExpiredList _ => inferInstanceAs (Decidable True)

def StepsMeet (s : State) : List Op → Prop
  | [] => True
  | op :: ops => Meets hash s op ∧ StepsMeet (call hash s op) ops

instance StepsMeet.decidable (s : State) : (ops : List Op) → Decidable (StepsMeet hash s ops)
  | [] => inferInstanceAs (Decidable True)
  | op :: ops =>
    have := StepsMeet.decidable (call hash s op) ops
    inferInstanceAs (Decidable (Meets hash s op ∧ StepsMeet hash (call hash s op) ops))

/-- Slots hold padded keys, each of its own and in its bucket, with the values added last. -/
structure Sound (s : State) (added : Bytes → Option Bytes) : Prop where
  nodup : s.timeList.Nodup
  chain_nodup : ∀ b, (s.hashList b).Nodup
  mem_chain : ∀ b h, h ∈ s.hashList b ↔ h ∈ s.timeList ∧ bucket hash (s.slot h).storedKey = b
  fresh : ∀ h ∈ s.timeList, h < s.next
  padded : ∀ h ∈ s.timeList, (s.slot h).key = padKey (s.slot h).storedKey ∧
    (s.slot h).storedKey.length = (s.slot h).ksize ∧ (s.slot h).ksize < maxKeyLength
  unique : ∀ h ∈ s.timeList, ∀ g ∈ s.timeList,
    (s.slot h).storedKey = (s.slot g).storedKey → h = g
  value : ∀ h ∈ s.timeList, added (s.slot h).storedKey = some (s.slot h).value
  count : s.currentBlslotCount.toNat = s.timeList.length

variable {hash} {s : State} {added : Bytes → Option Bytes}

theorem sound_init (max expired : UInt32) : Sound hash (initList max expired) fun _ => none where
  nodup := .nil
  chain_nodup _ := .nil
  mem_chain _ _ := ⟨fun h => (not_mem_nil h).elim, fun h => (not_mem_nil h.1).elim⟩
  fresh _ h := nomatch h
  padded _ h := nomatch h
  unique _ h := nomatch h
  value _ h := nomatch h
  count := rfl

theorem bucket_lt (key : Bytes) : bucket hash key < maxHashDepth := Nat.mod_lt _ (by decide)

/-- The slots on the chains are those on the time list. -/
theorem Sound.chains (h : Sound hash s added) :
    ((List.range maxHashDepth).flatMap s.hashList).Perm s.timeList := by
  rw [perm_ext_iff_of_nodup _ h.nodup]
  · intro g
    rw [mem_flatMap]
    constructor
    · rintro ⟨b, -, hb⟩
      exact ((h.mem_chain b g).mp hb).1
    · intro hg
      exact ⟨_, mem_range.mpr (bucket_lt _), (h.mem_chain _ g).mpr ⟨hg, rfl⟩⟩
  · rw [nodup_flatMap]
    refine ⟨fun b _ => h.chain_nodup b, List.Pairwise.imp (fun hne => ?_) nodup_range⟩
    intro g hg hg'
    exact hne (((h.mem_chain _ g).mp hg).2.symm.trans ((h.mem_chain _ g).mp hg').2)

theorem Sound.isMap (h : Sound hash s added) : IsMap s added := ⟨h.unique, h.count, h.chains⟩

theorem lookup_mem {key : Bytes} {h : Handle} (hs : Sound hash s added)
    (hl : lookup hash s key = some h) : h ∈ s.timeList :=
  ((hs.mem_chain _ h).mp (mem_of_find?_eq_some hl)).1

/-! ## The calls -/

/-- A slot of the key compares equal. -/
theorem keyCompare_padKey (key : Bytes) : keyCompare key (padKey key) key.length = true := by
  rw [keyCompare, padKey, take_append_of_le_length le_rfl]
  exact decide_eq_true rfl

/-- A key that is found is refreshed. -/
theorem Sound.refresh (hs : Sound hash s added) {key value : Bytes} {h : Handle}
    (hl : lookup hash s key = some h) (hkey : (s.slot h).storedKey = key)
    (hvalue : (s.slot h).value = value) (expired : UInt32) :
    Sound hash { s with
      slot := update s.slot h { s.slot h with ksize := key.length, expired }
      timeList := s.timeList.erase h ++ [h] } (update added key (some value)) := by
  have hmem := lookup_mem hs hl
  obtain ⟨hpad, hsize, hlt⟩ := hs.padded h hmem
  have hksize : key.length = (s.slot h).ksize := by rw [← hkey, hsize]
  have hfields : ∀ g, (update s.slot h { s.slot h with ksize := key.length, expired } g).key
        = (s.slot g).key ∧
      (update s.slot h { s.slot h with ksize := key.length, expired } g).ksize
        = (s.slot g).ksize ∧
      (update s.slot h { s.slot h with ksize := key.length, expired } g).value
        = (s.slot g).value := by
    intro g
    by_cases hg : g = h
    · subst hg
      rw [update_self]
      exact ⟨rfl, hksize, rfl⟩
    · rw [update_of_ne hg]
      exact ⟨rfl, rfl, rfl⟩
  have hstored : ∀ g, (update s.slot h { s.slot h with ksize := key.length, expired }
      g).storedKey = (s.slot g).storedKey := by
    intro g
    rw [Blslot.storedKey, Blslot.storedKey, (hfields g).1, (hfields g).2.1]
  have hiff : ∀ g, g ∈ s.timeList.erase h ++ [h] ↔ g ∈ s.timeList := by
    intro g
    rw [mem_append, mem_singleton, hs.nodup.mem_erase_iff]
    by_cases hg : g = h
    · simp [hg, hmem]
    · simp [hg]
  refine ⟨?_, hs.chain_nodup, fun b g => ?_, fun g hg => hs.fresh g ((hiff g).mp hg),
    fun g hg => ?_, fun g hg g' hg' heq => ?_, fun g hg => ?_, ?_⟩
  · rw [nodup_append]
    refine ⟨hs.nodup.erase h, nodup_singleton h, fun g hg g' hg' => ?_⟩
    rw [mem_singleton.mp hg']
    exact (hs.nodup.mem_erase_iff.mp hg).1
  · rw [hs.mem_chain, hiff, hstored]
  · obtain ⟨hpad, hsize, hlt⟩ := hs.padded g ((hiff g).mp hg)
    rw [hstored, (hfields g).1, (hfields g).2.1]
    exact ⟨hpad, hsize, hlt⟩
  · rw [hstored, hstored] at heq
    exact hs.unique g ((hiff g).mp hg) g' ((hiff g').mp hg') heq
  · rw [hstored, (hfields g).2.2]
    have hg' := (hiff g).mp hg
    by_cases hk : (s.slot g).storedKey = key
    · have hgh : g = h := hs.unique g hg' h hmem (hk.trans hkey.symm)
      rw [hk, update_self, hgh, hvalue]
    · rw [update_of_ne hk]
      exact hs.value g hg'
  · have hpos := length_pos_of_mem hmem
    rw [length_append, length_erase_of_mem hmem, length_singleton, hs.count]
    omega

/-- A key that is not found gets a slot. -/
theorem Sound.add (hs : Sound hash s added) {key : Bytes} (hlen : key.length < maxKeyLength)
    (hl : lookup hash s key = none) (hroom : s.currentBlslotCount < s.maxBlslotCount)
    (value : Bytes) (expired : UInt32) :
    Sound hash { s with
      slot := update s.slot s.next ⟨key.length, expired, padKey key, value⟩
      next := s.next + 1
      hashList := update s.hashList (bucket hash key)
        (s.next :: s.hashList (bucket hash key))
      timeList := s.timeList ++ [s.next]
      currentBlslotCount := s.currentBlslotCount + 1 }
      (update added key (some value)) := by
  set slot := update s.slot s.next ⟨key.length, expired, padKey key, value⟩ with hslot
  have hnew : s.next ∉ s.timeList := fun h => lt_irrefl _ (hs.fresh _ h)
  have hself : (slot s.next).storedKey = key := by
    rw [hslot, update_self, Blslot.storedKey, padKey]
    exact take_left
  have hold : ∀ g ∈ s.timeList, slot g = s.slot g := fun g hg =>
    update_of_ne (fun h => hnew (by rwa [← h])) _ _
  -- a slot of this key would have been found
  have hother : ∀ g ∈ s.timeList, (s.slot g).storedKey ≠ key := by
    intro g hg hk
    have hchain := (hs.mem_chain (bucket hash key) g).mpr ⟨hg, by rw [hk]⟩
    have hmiss := List.find?_eq_none.mp hl g hchain
    rw [(hs.padded g hg).1, hk] at hmiss
    exact hmiss (keyCompare_padKey key)
  have hcount : (s.currentBlslotCount + 1).toNat = s.currentBlslotCount.toNat + 1 := by
    have := UInt32.lt_iff_toNat_lt.mp hroom
    have := s.maxBlslotCount.toNat_lt
    rw [UInt32.toNat_add, UInt32.toNat_one]
    exact Nat.mod_eq_of_lt (by omega)
  have hmem : ∀ g, g ∈ s.timeList ++ [s.next] ↔ g ∈ s.timeList ∨ g = s.next := by
    simp
  refine ⟨?_, fun b => ?_, fun b g => ?_, fun g hg => ?_, fun g hg => ?_, fun g hg g' hg' heq => ?_,
    fun g hg => ?_, ?_⟩
  · rw [nodup_append]
    refine ⟨hs.nodup, nodup_singleton _, fun g hg g' hg' h => hnew ?_⟩
    rwa [← mem_singleton.mp hg', ← h]
  · dsimp only
    by_cases hb : b = bucket hash key
    · subst hb
      rw [update_self, nodup_cons]
      exact ⟨fun h => hnew ((hs.mem_chain _ _).mp h).1, hs.chain_nodup _⟩
    · rw [update_of_ne hb]
      exact hs.chain_nodup b
  · dsimp only
    rw [hmem]
    by_cases hg : g = s.next
    · subst hg
      rw [hself]
      by_cases hb : b = bucket hash key
      · simp [hb]
      · rw [update_of_ne hb]
        exact ⟨fun h => absurd ((hs.mem_chain _ _).mp h).1 hnew, fun h => absurd h.2.symm hb⟩
    · have hchain : g ∈ update s.hashList (bucket hash key)
          (s.next :: s.hashList (bucket hash key)) b ↔ g ∈ s.hashList b := by
        by_cases hb : b = bucket hash key
        · subst hb
          rw [update_self, mem_cons, or_iff_right hg]
        · rw [update_of_ne hb]
      rw [hchain, hs.mem_chain, or_iff_left hg]
      refine and_congr_right fun hgt => ?_
      rw [hold g hgt]
  · rcases (hmem g).mp hg with hg | rfl
    · exact (hs.fresh g hg).trans (Nat.lt_succ_self _)
    · exact Nat.lt_succ_self _
  · dsimp only
    rcases (hmem g).mp hg with hg | rfl
    · rw [hold g hg]
      exact hs.padded g hg
    · rw [hself, hslot, update_self]
      exact ⟨rfl, rfl, hlen⟩
  · dsimp only at heq
    rcases (hmem g).mp hg with hg | rfl <;> rcases (hmem g').mp hg' with hg' | rfl
    · rw [hold g hg, hold g' hg'] at heq
      exact hs.unique g hg g' hg' heq
    · rw [hold g hg, hself] at heq
      exact absurd heq (hother g hg)
    · rw [hold g' hg', hself] at heq
      exact absurd heq.symm (hother g' hg')
    · rfl
  · dsimp only
    rcases (hmem g).mp hg with hg | rfl
    · rw [hold g hg, update_of_ne (hother g hg)]
      exact hs.value g hg
    · rw [hself, update_self, hslot, update_self]
  · rw [hcount, hs.count, length_append, length_singleton]

/-- The oldest slot is given back. -/
theorem Sound.deleteOldest (hs : Sound hash s added) {h : Handle} {rest : List Handle}
    (htime : s.timeList = h :: rest) : Sound hash (deleteOldest s h rest) added := by
  have hnodup := hs.nodup
  rw [htime, nodup_cons] at hnodup
  have hsub : ∀ g ∈ rest, g ∈ s.timeList := fun g hg => htime ▸ mem_cons_of_mem h hg
  refine ⟨hnodup.2, fun b => (hs.chain_nodup b).erase h, fun b g => ?_,
    fun g hg => hs.fresh g (hsub g hg), fun g hg => hs.padded g (hsub g hg),
    fun g hg g' hg' => hs.unique g (hsub g hg) g' (hsub g' hg'),
    fun g hg => hs.value g (hsub g hg), ?_⟩
  · change g ∈ (s.hashList b).erase h ↔ g ∈ rest ∧ _
    rw [(hs.chain_nodup b).mem_erase_iff, hs.mem_chain, htime, mem_cons, ← and_assoc]
    refine and_congr_left fun _ => ⟨fun hg => hg.2.resolve_left hg.1, fun hg => ⟨?_, .inr hg⟩⟩
    rintro rfl
    exact hnodup.1 hg
  · have hcount := hs.count
    rw [htime, length_cons] at hcount
    have hpos : (1 : UInt32) ≤ s.currentBlslotCount := by
      rw [UInt32.le_iff_toNat_le, hcount]
      exact Nat.le_add_left 1 _
    change (s.currentBlslotCount - 1).toNat = rest.length
    rw [UInt32.toNat_sub_of_le _ _ hpos, hcount]
    rfl

theorem Sound.expireLoop (now : UInt32) {hs : List Handle} {s : State} (h : Sound hash s added)
    (htime : s.timeList = hs) : Sound hash (expireLoop now hs s) added := by
  induction hs generalizing s with
  | nil => exact h
  | cons g rest ih =>
    rw [CacheList.expireLoop]
    split
    · exact h
    · exact ih (h.deleteOldest htime) rfl

/-- A call that meets the condition keeps the invariant. -/
theorem Sound.call (h : Sound hash s added) {op : Op} (hm : Meets hash s op) :
    Sound hash (call hash s op) (record hash s added op) := by
  cases op with
  | addList key value now alloc =>
    rw [CacheList.call, record, addList]
    by_cases hlen : maxKeyLength ≤ key.length
    · rw [if_pos hlen]
      exact h
    · rw [if_neg hlen]
      cases hl : lookup hash s key with
      | some g => exact h.refresh hl (hm g hl).1 (hm g hl).2 _
      | none =>
        by_cases hroom : s.maxBlslotCount ≤ s.currentBlslotCount
        · simp only [if_pos hroom]
          exact h
        · simp only [if_neg hroom]
          cases alloc with
          | false => exact h
          | true => exact h.add (not_le.mp hlen) hl (UInt32.not_le.mp hroom) value _
  | inList key => exact h
  | tryExpiredList now => exact h.expireLoop now rfl

theorem Sound.hitsRight (h : Sound hash s added) {op : Op} (hm : Meets hash s op) :
    HitsRight hash s added op := by
  cases op with
  | addList => exact trivial
  | tryExpiredList => exact trivial
  | inList key =>
    intro value hvalue
    rw [inList] at hvalue
    split at hvalue
    · cases hvalue
    · obtain ⟨g, hl, rfl⟩ := Option.map_eq_some_iff.mp hvalue
      have hg := h.value g (lookup_mem h hl)
      rwa [hm g hl] at hg

theorem Sound.runsAsMap {ops : List Op} (h : Sound hash s added) (hm : StepsMeet hash s ops) :
    RunsAsMap hash s added ops := by
  induction ops generalizing s added with
  | nil => exact h.isMap
  | cons op ops ih => exact ⟨h.isMap, h.hitsRight hm.1, ih (h.call hm.1) hm.2⟩

/-- From the empty list on, calls whose keys are compared with their own slots only see a map. -/
theorem run_isMap (hash : Bytes → UInt32) (max expired : UInt32) (ops : List Op)
    (hm : StepsMeet hash (initList max expired) ops) :
    RunsAsMap hash (initList max expired) (fun _ => none) ops :=
  (sound_init max expired).runsAsMap hm

/-- A key that is added twice with its value, looked up, and expired. -/
theorem run_isMap_key : RunsAsMap keyHash (initList 10 60) (fun _ => none)
    [.addList [48] [1] 0 true, .inList [48], .addList [48] [1] 30 true, .tryExpiredList 100,
      .inList [48]] :=
  run_isMap keyHash 10 60 _ (by decide)

/-- `0` is found in the slot of `00Fh`, and keeps its first value. -/
theorem not_run_isMap_prefix :
    ¬RunsAsMap keyHash (initList 10 60) (fun _ => none)
      [.addList [48, 48, 70, 104] [1] 0 true, .inList [48]] ∧
    ¬RunsAsMap keyHash (initList 10 60) (fun _ => none)
      [.addList [48] [1] 0 true, .addList [48] [2] 0 true, .inList [48]] := by
  constructor
  · rintro ⟨-, -, -, hhit, -⟩
    exact absurd (hhit [1] (by decide)) (by decide)
  · rintro ⟨-, -, -, -, -, hhit, -⟩
    exact absurd (hhit [1] (by decide)) (by decide)

end ISearch.CacheList
