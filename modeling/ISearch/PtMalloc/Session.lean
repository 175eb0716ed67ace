import Mathlib.Algebra.Order.BigOperators.Group.Finset
import Mathlib.Order.Interval.Finset.Nat
import ISearch.Lib.Run
import ISearch.PtMalloc.Operations

/-!
# Sequences of calls

A session is the allocator with what its user knows: the blocks that the calls have handed out and
not taken back. `Tracks` says that the heap holds these blocks and counts them.
-/

namespace ISearch.PtMalloc

open Function Option

variable {e : Prop} {h h' : Heap} {g g' : Layout} {a b p q r s t n N : Nat}

/-! ## Sums over blocks -/

/-- The sum of `f` over the blocks `l` below `N`. -/
def weigh (f : Option Nat → Nat) (l : Nat → Option Nat) (N : Nat) : Nat :=
  ∑ a ∈ Finset.range N, f (l a)

/-- The number of live blocks. -/
def blockCount (l : Nat → Option Nat) (N : Nat) : Nat :=
  weigh (fun o => if o.isSome then 1 else 0) l N

/-- The sum of the sizes of the live blocks. -/
def blockTotal (l : Nat → Option Nat) (N : Nat) : Nat := weigh (·.getD 0) l N

theorem weigh_none (f : Option Nat → Nat) (hf : f none = 0) : weigh f (fun _ => none) N = 0 :=
  Finset.sum_eq_zero fun _ _ => hf

theorem weigh_update (f : Option Nat → Nat) (l : Nat → Option Nat) (v : Option Nat) (ha : a < N) :
    weigh f (update l a v) N + f (l a) = weigh f l N + f v := by
  have hmem := Finset.mem_range.mpr ha
  have hrest : ∑ x ∈ (Finset.range N).erase a, f (update l a v x) =
      ∑ x ∈ (Finset.range N).erase a, f (l x) :=
    Finset.sum_congr rfl fun x hx => by rw [update_of_ne (Finset.ne_of_mem_erase hx)]
  rw [weigh, weigh, ← Finset.add_sum_erase _ _ hmem,
    ← Finset.add_sum_erase _ (fun x => f (l x)) hmem, hrest, update_self]
  omega

/-- The blocks lie apart between the bottom and the top. -/
theorem Sound.blockTotal_le (sound : Sound e h g) (N : Nat) :
    h.hBottom + blockTotal g.live N ≤ h.hTop := by
  have hcard : blockTotal g.live N =
      ((Finset.range N).biUnion fun a => Finset.Ico a (a + (g.live a).getD 0)).card := by
    rw [Finset.card_biUnion]
    · rw [blockTotal, weigh]
      refine Finset.sum_congr rfl fun a _ => ?_
      rw [Nat.card_Ico, Nat.add_sub_cancel_left]
    · intro a _ b _ hne
      rw [Function.onFun, Finset.disjoint_left]
      intro x hxa hxb
      rw [Finset.mem_Ico] at hxa hxb
      cases hla : g.live a with
      | none =>
        rw [hla] at hxa
        simp only [getD_none] at hxa
        omega
      | some r =>
        cases hlb : g.live b with
        | none =>
          rw [hlb] at hxb
          simp only [getD_none] at hxb
          omega
        | some t =>
          rw [hla] at hxa
          rw [hlb] at hxb
          simp only [getD_some] at hxa hxb
          rcases Nat.lt_or_gt_of_ne hne with hlt | hlt
          · have := sound.tiled.disjoint a _ b _ (live_eq_some.mp hla) (live_eq_some.mp hlb) hlt
            dsimp only at this
            omega
          · have := sound.tiled.disjoint b _ a _ (live_eq_some.mp hlb) (live_eq_some.mp hla) hlt
            dsimp only at this
            omega
  have hsub : (Finset.range N).biUnion (fun a => Finset.Ico a (a + (g.live a).getD 0)) ⊆
      Finset.Ico h.hBottom h.hTop := by
    intro x hx
    obtain ⟨a, -, hxa⟩ := Finset.mem_biUnion.mp hx
    rw [Finset.mem_Ico] at hxa ⊢
    cases hla : g.live a with
    | none =>
      rw [hla] at hxa
      simp only [getD_none] at hxa
      omega
    | some r =>
      have hba := sound.tiled.bounds a _ (live_eq_some.mp hla)
      rw [hla] at hxa
      simp only [getD_some] at hxa hba
      omega
  have hle := Finset.card_le_card hsub
  rw [← hcard, Nat.card_Ico] at hle
  have := sound.tiled.bottom_le
  omega

theorem Sound.blockCount_le (sound : Sound e h g) (N : Nat) :
    blockCount g.live N ≤ blockTotal g.live N := by
  rw [blockCount, blockTotal, weigh, weigh]
  refine Finset.sum_le_sum fun a _ => ?_
  cases hla : g.live a with
  | none => exact Nat.le_refl _
  | some r =>
    have hba := sound.tiled.bounds a _ (live_eq_some.mp hla)
    simp only [isSome_some, if_true, getD_some] at hba ⊢
    omega

inductive Call where
  | malloc (tSize : Nat)
  | calloc (tSize : Nat)
  | reAlloc (hHandle tSize : Nat)
  | free (hHandle : Nat)

/-- The allocator, the sizes of the chunks of the live blocks, and the sizes the user asked for. -/
structure Session where
  heap : Heap
  live : Nat → Option Nat
  requested : Nat → Nat

namespace Session

/-- The handle of a live block. -/
def IsLive (w : Session) (q : Nat) : Prop := 8 ≤ q ∧ w.live (mem2chunk q) ≠ none

/-- The heap `h` has handed out `p` for `n` bytes, or nothing. -/
def place (w : Session) (h : Heap) (p n : Nat) : Session :=
  if p = 0 then { w with heap := h }
  else
    { heap := h
      live := update w.live (mem2chunk p) (some (h.chunkSize (mem2chunk p)))
      requested := update w.requested (mem2chunk p) n }

/-- The user has given `q` back. -/
def drop (w : Session) (q : Nat) : Session :=
  if q = 0 then w else { w with live := update w.live (mem2chunk q) none }

/-- The answer of a call, and the session after it. -/
def call (w : Session) : Call → Option (Int × Session)
  | .malloc n => (w.heap.malloc n).map fun (h, p) => (p, w.place h p n)
  | .calloc n => (w.heap.calloc n).map fun (h, p) => (p, w.place h p n)
  | .reAlloc q n => (w.heap.reAlloc q n).map fun (h, p) =>
      (p, if p = 0 ∧ n ≠ 0 then { w with heap := h } else (w.drop q).place h p n)
  | .free q =>
      let (h, iRet) := w.heap.free q
      some (iRet, if iRet = 0 then { w.drop q with heap := h } else { w with heap := h })

def step (w : Session) (c : Call) : Option Session := (w.call c).map Prod.snd

/-- The allocator after `Init`. -/
def start (h : Heap) : Session := ⟨h, fun _ => none, fun _ => 0⟩

end Session

/-! ## What the calls need -/

namespace Heap

/-- `inter_free` refuses the handle with a negative number. -/
def FreeRefuses (h : Heap) (q : Nat) : Prop :=
  q ≠ 0 ∧ (h.tSize ≤ q ∨ h.tSize ≤ h.ptrToHandle (mem2chunk q) + h.chunkSize (mem2chunk q) ∨
    h.prevInuse (mem2chunk q + h.chunkSize (mem2chunk q)) = false)

/-- The checks of `inter_re_alloc` refuse the size or the handle. -/
def ReAllocRefuses (h : Heap) (q n : Nat) : Prop :=
  q ≠ 0 ∧ n ≠ 0 ∧ (requestOutOfRange n = true ∨ h.hTop ≤ q ∨ q ≤ h.hBottom ∨
    h.hTop < h.ptrToHandle (mem2chunk q) + h.chunkSize (mem2chunk q) ∨ mem2chunk q % 8 ≠ 0 ∨
    h.chunkSize (mem2chunk q) < minSize ∨ h.checkInuseChunk (mem2chunk q) ≠ 0)

theorem free_refused (hrefuse : h.FreeRefuses q) : ∃ iRet, h.free q = (h, iRet) ∧ iRet ≠ 0 := by
  obtain ⟨hq, hrefuse⟩ := hrefuse
  rw [free, interFree, if_neg hq]
  by_cases hsize : h.tSize ≤ q
  · rw [if_pos hsize]
    exact ⟨-1, rfl, by decide⟩
  rw [if_neg hsize]
  dsimp only
  by_cases hend : h.tSize ≤ h.ptrToHandle (mem2chunk q) + h.chunkSize (mem2chunk q)
  · rw [if_pos hend]
    exact ⟨-2, rfl, by decide⟩
  rw [if_neg hend, (hrefuse.resolve_left hsize).resolve_left hend]
  exact ⟨-3, rfl, by decide⟩

theorem interReAlloc_refused (hrefuse : h.ReAllocRefuses q n) :
    h.interReAlloc q n = some (h, 0, 0) := by
  obtain ⟨hq, hn, hrefuse⟩ := hrefuse
  rw [interReAlloc, if_neg hq, if_neg hn]
  refine ite_eq_left_iff.mpr fun hreq => ?_
  refine ite_eq_left_iff.mpr fun hout => ?_
  refine ite_eq_left_iff.mpr fun hend => ?_
  refine ite_eq_left_iff.mpr fun hmod => ?_
  refine ite_eq_left_iff.mpr fun hsmall => ?_
  refine ite_eq_left_iff.mpr fun hcheck => ?_
  rw [not_or] at hout
  rcases hrefuse with hr | hr | hr | hr | hr | hr | hr
  exacts [absurd hr hreq, absurd hr hout.1, absurd hr hout.2, absurd hr hend, absurd hr hmod,
    absurd hr hsmall, absurd hr hcheck]

theorem reAlloc_refused (hrefuse : h.ReAllocRefuses q n) : h.reAlloc q n = some (h.reset, 0) := by
  have hreset : h.reset.ReAllocRefuses q n := hrefuse
  rw [reAlloc, interReAlloc_refused hreset]
  simp [hrefuse.2.1]

/-- `ReAlloc` of no block is `Malloc`. -/
theorem reAlloc_invalid (h : Heap) (hn : n = 0 → ∀ h', h.malloc n ≠ some (h', 0)) :
    h.reAlloc 0 n = h.malloc n := by
  rw [reAlloc, malloc, interReAlloc, if_pos rfl]
  cases hm : h.reset.interMalloc n with
  | none => rfl
  | some r =>
    obtain ⟨h', p⟩ := r
    by_cases hp : p = 0
    · have hn0 : n ≠ 0 := by
        intro h0
        refine hn h0 h' ?_
        rw [malloc, hm, hp]
        rfl
      simp [hp, hn0]
    · simp [hp]

/-- `ReAlloc` to no size is `Free`. -/
theorem reAlloc_zero (hq : q ≠ 0) (hfree : h.reset.free q = (h', 0)) :
    h.reAlloc q 0 = some (h', 0) := by
  rw [free] at hfree
  obtain ⟨⟨h₁, iRet, o⟩, hinter⟩ : ∃ r, h.reset.interFree q = r := ⟨_, rfl⟩
  rw [reAlloc, interReAlloc, if_neg hq, if_pos rfl, hinter]
  rw [hinter] at hfree
  by_cases hret : iRet = 0
  · simpa [hret] using hfree
  · simp [hret] at hfree

end Heap

namespace Session

/-- The arguments are handles of live blocks. `ReAlloc` also takes `INVALID_HANDLE`, for no bytes
only where there is memory. -/
def Proper (w : Session) : Call → Prop
  | .malloc _ | .calloc _ => True
  | .reAlloc q n => w.IsLive q ∨ q = 0 ∧ (n = 0 → ∀ h, w.heap.malloc n ≠ some (h, 0))
  | .free q => w.IsLive q

/-- The call gets an argument that it refuses. -/
def Refused (w : Session) : Call → Prop
  | .malloc _ | .calloc _ => False
  | .reAlloc q n => w.heap.ReAllocRefuses q n
  | .free q => w.heap.FreeRefuses q

/-- The rests that the call cuts off have the size of a chunk, and no chunk exceeds 32 bits. -/
def CutsOk (w : Session) : Call → Prop
  | .malloc n | .calloc n => w.heap.reset.MallocSplitOk n
  | .reAlloc q n => (q = 0 → w.heap.reset.MallocSplitOk n) ∧
      ∀ t, w.live (mem2chunk q) = some t → n ≠ 0 → w.heap.ReAllocOk (mem2chunk q) t n
  | .free _ => True

/-- Where a freed block goes to the top, no free chunk is left before it. -/
def TopJoins (w : Session) : Call → Prop
  | .malloc _ | .calloc _ => True
  | .reAlloc q n => ∀ t, w.live (mem2chunk q) = some t →
      if n = 0 then w.heap.TopJoins (mem2chunk q) t
      else w.heap.reset.Copies (mem2chunk q) t n → ∀ h₁ p, w.heap.reset.interMalloc n =
        some (h₁, p) →
        p ≠ 0 → (h₁.copied (mem2chunk q) t p).TopJoins (mem2chunk q) t
  | .free q => ∀ t, w.live (mem2chunk q) = some t → w.heap.TopJoins (mem2chunk q) t

end Session

/-! ## The blocks and the counters -/

/-- The heap has the blocks of the session, each with room for its bytes, and counts them. -/
structure Tracks (e : Prop) (w : Session) (g : Layout) : Prop where
  sound : Sound e w.heap g
  live : g.live = w.live
  room : ∀ a t, w.live a = some t → w.requested a + 4 ≤ t
  count : w.heap.tUserAllocChunkCnt = UInt64.ofNat (blockCount w.live w.heap.tSize)
  size : w.heap.tUserAllocSize = UInt64.ofNat (w.heap.hBottom + blockTotal w.live w.heap.tSize)

variable {w w' : Session}

theorem tracks_start {mem : Mem} {tSize minChunkSize : Nat}
    (hinit : init mem tSize minChunkSize = some h) (hlt : tSize < 2 ^ 64) :
    Tracks e (.start h) (emptyLayout mem) := by
  refine ⟨init_sound hinit hlt, rfl, fun a t ha => ?_, ?_, ?_⟩
  · cases ha
  · rw [Session.start, blockCount, weigh_none _ rfl]
    rw [init] at hinit
    split at hinit
    next => cases hinit
    next =>
      cases hinit
      rfl
  · rw [Session.start, blockTotal, weigh_none _ rfl]
    rw [init] at hinit
    split at hinit
    next => cases hinit
    next =>
      cases hinit
      rfl

namespace Tracks

/-- The handle of a live block comes behind its header. -/
theorem exists_block (tracks : Tracks e w g) (hq : w.IsLive q) :
    ∃ a s, q = a + 8 ∧ w.live a = some s ∧ g.live a = some s := by
  obtain ⟨hge, hne⟩ := hq
  obtain ⟨s, hs⟩ := ne_none_iff_exists'.mp hne
  exact ⟨mem2chunk q, s, by rw [mem2chunk]; omega, hs, by rw [tracks.live, hs]⟩

theorem lt_tSize (tracks : Tracks e w g) (ha : g.live a = some s) : a < w.heap.tSize := by
  have hba := tracks.sound.tiled.bounds a _ (live_eq_some.mp ha)
  have := tracks.sound.top_le
  omega

/-- Nothing but the contents of the heap has changed. -/
theorem kept (tracks : Tracks e w g) (hsound : Sound e h' g) (hrest : h'.rest = w.heap.rest) :
    Tracks e { w with heap := h' } g := by
  simp only [Heap.rest, Prod.mk.injEq] at hrest
  obtain ⟨hsize, huser, hcnt, hbottom, -⟩ := hrest
  exact ⟨hsound, tracks.live, tracks.room, by rw [hcnt, hsize, tracks.count],
    by rw [huser, hsize, hbottom, tracks.size]⟩

theorem place_eq (w : Session) (hsound : Sound e h' g') (hp : g'.live p = some t) :
    w.place h' (p + 8) n =
      ⟨h', update w.live p (some t), update w.requested p n⟩ := by
  rw [Session.place, if_neg (by omega), mem2chunk, Nat.add_sub_cancel,
    hsound.size_of (live_eq_some.mp hp) trivial]

theorem drop_eq (w : Session) : w.drop (a + 8) = { w with live := update w.live a none } := by
  rw [Session.drop, if_neg (by omega), mem2chunk, Nat.add_sub_cancel]

theorem room_update (hroom : ∀ a t, w.live a = some t → w.requested a + 4 ≤ t) (hle : n + 4 ≤ t)
    (ha : update w.live p (some t) a = some s) :
    update w.requested p n a + 4 ≤ s := by
  by_cases hap : a = p
  · rw [hap, update_self, Option.some.injEq] at ha
    rw [hap, update_self, ← ha]
    exact hle
  · rw [update_of_ne hap] at ha ⊢
    exact hroom a s ha

/-- A new block. -/
theorem added (tracks : Tracks e w g) (hsound : Sound e h' g') (hrest : h'.rest = w.heap.restAdd t)
    (hfresh : g.live p = none) (hlive : g'.live = update g.live p (some t))
    (hle : n + 4 ≤ t) : Tracks e (w.place h' (p + 8) n) g' := by
  have hp : g'.live p = some t := by rw [hlive, update_self]
  simp only [Heap.rest, Heap.restAdd, Prod.mk.injEq] at hrest
  obtain ⟨hsize, huser, hcnt, hbottom, -⟩ := hrest
  have hlt : p < w.heap.tSize := by
    have hba := hsound.tiled.bounds p _ (live_eq_some.mp hp)
    have := hsound.top_le
    omega
  rw [tracks.live] at hfresh hlive
  rw [place_eq w hsound hp]
  have hone := weigh_update (fun o => if o.isSome then 1 else 0) w.live (some t) hlt
  have htotal := weigh_update (·.getD 0) w.live (some t) hlt
  rw [hfresh] at hone htotal
  refine ⟨hsound, hlive, fun a s ha => room_update tracks.room hle ha, ?_, ?_⟩
  · dsimp only
    rw [hcnt, hsize, tracks.count, blockCount, blockCount, ← UInt64.ofNat_one, ← UInt64.ofNat_add]
    congr 1
    exact hone.symm
  · dsimp only
    rw [huser, hsize, hbottom, tracks.size, blockTotal, blockTotal, ← UInt64.ofNat_add,
      Nat.add_assoc]
    congr 2
    exact htotal.symm

/-- A block given back. -/
theorem dropped (tracks : Tracks e w g) (ha : g.live a = some s) (hsound : Sound e h' g')
    (hlive : g'.live = update g.live a none) (hsize : h'.tSize = w.heap.tSize)
    (hbottom : h'.hBottom = w.heap.hBottom)
    (huser : h'.tUserAllocSize = w.heap.tUserAllocSize - UInt64.ofNat s)
    (hcnt : h'.tUserAllocChunkCnt = w.heap.tUserAllocChunkCnt - 1) :
    Tracks e { w.drop (a + 8) with heap := h' } g' := by
  have hlt := tracks.lt_tSize ha
  rw [tracks.live] at ha hlive
  rw [drop_eq]
  have hone := weigh_update (fun o => if o.isSome then 1 else 0) w.live none hlt
  have htotal := weigh_update (·.getD 0) w.live none hlt
  rw [ha] at hone htotal
  refine ⟨hsound, hlive, fun b r hb => ?_, ?_, ?_⟩
  · dsimp only at hb
    by_cases hba : b = a
    · rw [hba, update_self] at hb
      cases hb
    · rw [update_of_ne hba] at hb
      exact tracks.room b r hb
  · have hone' : blockCount (update w.live a none) w.heap.tSize + 1 =
        blockCount w.live w.heap.tSize := hone
    dsimp only
    rw [hcnt, hsize, tracks.count, ← hone', UInt64.ofNat_add, UInt64.ofNat_one,
      UInt64.add_sub_cancel]
  · dsimp only at htotal ⊢
    rw [getD_some, getD_none, Nat.add_zero] at htotal
    rw [huser, hsize, hbottom, tracks.size, blockTotal, blockTotal, ← htotal, ← Nat.add_assoc,
      UInt64.ofNat_add, UInt64.add_sub_cancel]

/-- A block moved. -/
theorem moved (tracks : Tracks e w g) (ha : g.live a = some s) (hsound : Sound e h' g')
    (hlive : g'.live = update (update g.live a none) b (some t))
    (hfresh : b = a ∨ g.live b = none) (hrest : h'.rest = w.heap.restMove s t) (hle : n + 4 ≤ t) :
    Tracks e ((w.drop (a + 8)).place h' (b + 8) n) g' := by
  have hb : g'.live b = some t := by rw [hlive, update_self]
  simp only [Heap.rest, Heap.restMove, Prod.mk.injEq] at hrest
  obtain ⟨hsize, huser, hcnt, hbottom, -⟩ := hrest
  have hlta := tracks.lt_tSize ha
  have hltb : b < w.heap.tSize := by
    have hbb := hsound.tiled.bounds b _ (live_eq_some.mp hb)
    have := hsound.top_le
    omega
  have hnone : update g.live a none b = none := by
    rcases hfresh with rfl | hfresh
    · exact update_self ..
    · by_cases hba : b = a
      · rw [hba, update_self]
      · rw [update_of_ne hba, hfresh]
  rw [tracks.live] at ha hlive hnone
  rw [place_eq _ hsound hb, drop_eq]
  have hone := weigh_update (fun o => if o.isSome then 1 else 0) w.live none hlta
  have hone' := weigh_update (fun o => if o.isSome then 1 else 0)
    (update w.live a none) (some t) hltb
  have htotal := weigh_update (·.getD 0) w.live none hlta
  have htotal' := weigh_update (·.getD 0) (update w.live a none) (some t) hltb
  rw [hnone] at hone' htotal'
  rw [ha] at hone htotal
  refine ⟨hsound, hlive, fun c r hc => ?_, ?_, ?_⟩
  · refine room_update (w := { w with live := update w.live a none }) (fun d u hd => ?_) hle hc
    dsimp only at hd
    by_cases hda : d = a
    · rw [hda, update_self] at hd
      cases hd
    · rw [update_of_ne hda] at hd
      exact tracks.room d u hd
  · dsimp only at hone hone' ⊢
    rw [isSome_some, isSome_none, if_pos rfl, if_neg (by decide)] at hone hone'
    rw [hcnt, hsize, tracks.count, blockCount, blockCount]
    congr 1
    omega
  · dsimp only at htotal htotal' ⊢
    rw [getD_some, getD_none, Nat.add_zero] at htotal htotal'
    rw [huser, hsize, hbottom, tracks.size, blockTotal, blockTotal, htotal', ← htotal,
      ← UInt64.ofNat_add, Nat.add_assoc, Nat.add_assoc, Nat.add_comm s t, ← Nat.add_assoc,
      ← Nat.add_assoc, UInt64.ofNat_add, UInt64.add_sub_cancel, Nat.add_assoc]

theorem place_zero (w : Session) : w.place h' 0 n = { w with heap := h' } := if_pos rfl

theorem malloc (tracks : Tracks e w g) (hsplit : w.heap.reset.MallocSplitOk n) :
    ∃ h' p g', w.heap.malloc n = some (h', p) ∧ Tracks e (w.place h' p n) g' := by
  rcases tracks.sound.malloc hsplit with ⟨h', heq, hsound, hrest⟩ | ⟨h', g', p, t, heq, hle, hadd⟩
  · refine ⟨h', 0, g, heq, ?_⟩
    rw [place_zero]
    exact tracks.kept hsound hrest
  · exact ⟨h', p + 8, g', heq, tracks.added hadd.sound hadd.rest hadd.fresh hadd.live hle⟩

theorem calloc (tracks : Tracks e w g) (hsplit : w.heap.reset.MallocSplitOk n) :
    ∃ h' p g', w.heap.calloc n = some (h', p) ∧ Tracks e (w.place h' p n) g' := by
  rw [Heap.calloc]
  rcases tracks.sound.malloc hsplit with ⟨h', heq, hsound, hrest⟩ | ⟨h', g', p, t, heq, hle, hadd⟩
  · refine ⟨h', 0, g, by rw [heq]; rfl, ?_⟩
    rw [place_zero]
    exact tracks.kept hsound hrest
  · have hp : g'.live p = some t := by rw [hadd.live, update_self]
    have hzero (k : Nat) (hk : k < p + 8 ∨ p + t + 4 ≤ k) :
        write h'.mem (p + 8) (List.replicate n 0) k = h'.mem k := by
      rcases hk with hk | hk
      · exact write_of_lt hk
      · exact write_of_ge (by rw [List.length_replicate]; omega)
    have hwrite := hadd.sound.write_block (live_eq_some.mp hp) hzero
    exact ⟨_, p + 8, { g' with data := write h'.mem (p + 8) (List.replicate n 0) },
      by rw [heq]; rfl, tracks.added hwrite hadd.rest hadd.fresh hadd.live hle⟩

theorem free (tracks : Tracks e w g) (ha : w.live a = some s)
    (hjoin : e → w.heap.TopJoins a s) :
    ∃ h' g', w.heap.free (a + 8) = (h', 0) ∧ Tracks e { w.drop (a + 8) with heap := h' } g' := by
  have ha' : g.live a = some s := by rw [tracks.live, ha]
  have hba := tracks.sound.tiled.bounds a _ (live_eq_some.mp ha')
  obtain ⟨h', g', heq, hsound, hfree, hrest⟩ := tracks.sound.free (live_eq_some.mp ha') hjoin
  simp only [Heap.rest, Prod.mk.injEq] at hrest
  obtain ⟨hsize, huser, hcnt, hbottom, -⟩ := hrest
  dsimp only at hba
  exact ⟨h', g', heq, tracks.dropped ha' hsound (hfree.live (by omega)) hsize hbottom huser hcnt⟩

/-- `ReAlloc` of a live block, to any size. -/
theorem reAlloc (tracks : Tracks e w g) (ha : w.live a = some s)
    (hok : n ≠ 0 → w.heap.ReAllocOk a s n)
    (hjoin : e → if n = 0 then w.heap.TopJoins a s else w.heap.reset.Copies a s n →
      ∀ h₁ p, w.heap.reset.interMalloc n = some (h₁, p) → p ≠ 0 → (h₁.copied a s p).TopJoins a s) :
    ∃ h' p g', w.heap.reAlloc (a + 8) n = some (h', p) ∧
      Tracks e (if p = 0 ∧ n ≠ 0 then { w with heap := h' }
        else (w.drop (a + 8)).place h' p n) g' := by
  have ha' : g.live a = some s := by rw [tracks.live, ha]
  by_cases hn : n = 0
  · subst hn
    have hreset : Tracks e { w with heap := w.heap.reset } g :=
      tracks.kept (tracks.sound.of_eq rfl rfl rfl rfl rfl rfl) rfl
    have hjoin' (he : e) : w.heap.TopJoins a s := by
      have := hjoin he
      rwa [if_pos rfl] at this
    obtain ⟨h', g', heq, htracks⟩ := hreset.free ha hjoin'
    refine ⟨h', 0, g', Heap.reAlloc_zero (by omega) heq, ?_⟩
    rw [if_neg (by simp), place_zero]
    rw [drop_eq] at htracks ⊢
    exact htracks
  · rcases tracks.sound.reAlloc ha' (Nat.pos_of_ne_zero hn) (hok hn)
        (fun he => by simpa [hn] using hjoin he) with
      ⟨h', heq, hsound, hrest⟩ | ⟨h₁, h', g', b, t, heq, hmoved, hsound, hrest, -⟩
    · refine ⟨h', 0, g, heq, ?_⟩
      rw [if_pos ⟨rfl, hn⟩]
      exact tracks.kept hsound hrest
    · refine ⟨h', b + 8, g', heq, ?_⟩
      rw [if_neg (by omega)]
      exact tracks.moved ha' hsound hmoved.live hmoved.fresh hrest hmoved.le

/-- A call keeps the blocks and the counters, and `Free` answers 0 for live blocks only. -/
theorem call {c : Call} (tracks : Tracks e w g) (hcuts : w.CutsOk c)
    (hargs : w.Proper c ∨ w.Refused c)
    (hjoin : e → w.TopJoins c) :
    ∃ iRet w' g', w.call c = some (iRet, w') ∧ Tracks e w' g' ∧
      ∀ q, c = .free q → iRet = 0 → w.IsLive q := by
  cases c with
  | malloc n =>
    obtain ⟨h', p, g', heq, htracks⟩ := tracks.malloc hcuts
    exact ⟨p, _, g', by rw [Session.call, heq]; rfl, htracks, fun q hq => by cases hq⟩
  | calloc n =>
    obtain ⟨h', p, g', heq, htracks⟩ := tracks.calloc hcuts
    exact ⟨p, _, g', by rw [Session.call, heq]; rfl, htracks, fun q hq => by cases hq⟩
  | reAlloc q n =>
    rcases hargs with (hq | ⟨rfl, hmem⟩) | hrefuse
    · obtain ⟨a, s, rfl, ha, -⟩ := tracks.exists_block hq
      obtain ⟨h', p, g', heq, htracks⟩ := tracks.reAlloc ha (hcuts.2 s ha) fun he => hjoin he s ha
      exact ⟨p, _, g', by rw [Session.call, heq]; rfl, htracks, fun q hq => by cases hq⟩
    · obtain ⟨h', p, g', heq, htracks⟩ := tracks.malloc (hcuts.1 rfl)
      have hre := w.heap.reAlloc_invalid hmem
      refine ⟨p, _, g', by rw [Session.call, hre, heq]; rfl, ?_, fun q hq => by cases hq⟩
      split
      next hfail =>
        rw [hfail.1, place_zero] at htracks
        exact htracks
      · exact htracks
    · refine ⟨0, _, g, by rw [Session.call, Heap.reAlloc_refused hrefuse]; rfl, ?_, fun q hq => by
        cases hq⟩
      rw [if_pos ⟨rfl, hrefuse.2.1⟩]
      exact tracks.kept (tracks.sound.of_eq rfl rfl rfl rfl rfl rfl) rfl
  | free q =>
    rcases hargs with hq | hrefuse
    · obtain ⟨a, s, rfl, ha, -⟩ := tracks.exists_block hq
      obtain ⟨h', g', heq, htracks⟩ := tracks.free ha fun he => hjoin he s ha
      refine ⟨0, _, g', by rw [Session.call, heq]; rfl, htracks, fun q hqa _ => ?_⟩
      cases hqa
      exact hq
    · obtain ⟨iRet, heq, hne⟩ := Heap.free_refused hrefuse
      refine ⟨iRet, _, g, by rw [Session.call, heq], ?_, fun q _ h0 => absurd h0 hne⟩
      rw [if_neg hne]
      exact tracks

end Tracks

end ISearch.PtMalloc
