import Veles.Chain.Work

/-!
# Building the block index: `AddToBlockIndex` and `LoadBlockIndex`

A running node adds headers one at a time with `CChainState::AddToBlockIndex`, computing
the memory-only fields of each new entry from its parent.  After a restart
`CChainState::LoadBlockIndex` recomputes them for the reloaded tree in one pass over the
entries sorted by height.  Both leave every entry with the values its stored ancestors
determine (`WorkCorrectAt`), so a node ranks chains the same before and after a restart.

    AddInv T → AddInv (addToBlockIndex T block).1                   (addInv_addToBlockIndex)
    T.Linked → WorkCorrectAt (loadBlockIndex T.reload) p             (workCorrectAt_loadBlockIndex)

Both rest on `linkWork_correct`: an entry gets the right fields from `linkWork` once every
entry below its height has them.  `AddToBlockIndex` appends entries after their parents;
`LoadBlockIndex` passes over them by height, and `LoadInv` records which it has passed.
-/

namespace Veles

namespace BlockTree

/-- `mapBlockIndex.find(hash)`. -/
def find? (T : BlockTree) (hash : Nat) : Option BlockPtr :=
  T.entries.findIdx? fun b => b.hashBlock == hash

/-- A new entry at the end of the arena. -/
def push (T : BlockTree) (b : CBlockIndex) : BlockTree := ⟨T.entries ++ [b]⟩

end BlockTree

/-- `new CBlockIndex(block)` linked to the entry of `hashPrevBlock`, with `BuildSkip`: the new
entry of `AddToBlockIndex` before its memory-only fields.  The code puts the new entry in the
map before it looks the parent up; the two orders differ only for a header that names itself
as its parent. -/
def newBlockIndex (T : BlockTree) (block : CBlockHeader) : CBlockIndex :=
  let pprev := T.find? block.hashPrevBlock
  let nHeight := match pprev with
    | some q => T.heightOf q + 1
    | none => 0
  { hashBlock := block.hash, pprev := pprev,
    pskip := pprev.bind fun q => getAncestor T q (getSkipHeight nHeight),
    nHeight := nHeight, nVersion := block.nVersion, nTime := block.nTime,
    nBits := block.nBits, nChainWork := 0, nChainWorkAlgo := 0, nTimeMax := 0 }

/-- `CChainState::AddToBlockIndex(block)`: the entry of a known hash, or a new entry with its
memory-only fields at the end of the arena. -/
def addToBlockIndex (T : BlockTree) (block : CBlockHeader) : BlockTree × BlockPtr :=
  match T.find? block.hash with
  | some p => (T, p)
  | none => (T.push (linkWork T (newBlockIndex T block)), T.entries.length)

/-- One pass of the `LoadBlockIndex` loop over `vSortedByHeight`: the memory-only fields
from the parent, then `BuildSkip`. -/
def loadBlockIndexStep (T : BlockTree) (p : BlockPtr) : BlockTree :=
  match T.get? p with
  | none => T
  | some pindex =>
    let pindex := linkWork T pindex
    let pindex := match pindex.pprev with
      | some q => { pindex with pskip := getAncestor T q (getSkipHeight pindex.nHeight) }
      | none => pindex
    ⟨T.entries.set p pindex⟩

/-- `vSortedByHeight`: the pointers of the arena ordered by `(nHeight, pointer)`. -/
def sortedByHeight (T : BlockTree) : List BlockPtr :=
  (List.range T.entries.length).mergeSort fun p q =>
    decide (T.heightOf p < T.heightOf q ∨ (T.heightOf p = T.heightOf q ∧ p ≤ q))

/-- `CChainState::LoadBlockIndex`, after `LoadBlockIndexGuts` has filled the arena. -/
def loadBlockIndex (T : BlockTree) : BlockTree :=
  (sortedByHeight T).foldl loadBlockIndexStep T

/-! ## Parents before children -/

namespace BlockTree

/-- Every parent pointer points to an earlier entry of the arena. -/
def PrevBefore (T : BlockTree) : Prop :=
  ∀ {p b q}, T.get? p = some b → b.pprev = some q → q < p

variable {T : BlockTree}

theorem find?_lt {hash : Nat} {p : BlockPtr} (h : T.find? hash = some p) : p < T.entries.length :=
  (List.findIdx?_eq_some_iff_findIdx_eq.mp h).1

theorem exists_get?_of_lt {p : BlockPtr} (hp : p < T.entries.length) : ∃ b, T.get? p = some b :=
  ⟨T.entries[p], List.getElem?_eq_getElem hp⟩

theorem lt_of_get? {p : BlockPtr} {b : CBlockIndex} (hb : T.get? p = some b) : p < T.entries.length := by
  by_contra h
  have : T.get? p = none := List.getElem?_eq_none (Nat.le_of_not_lt h)
  rw [this] at hb
  cases hb

@[simp] theorem length_reload : T.reload.entries.length = T.entries.length := by
  simp [reload]

@[simp] theorem reload_push (e : CBlockIndex) : (T.push e).reload = T.reload.push e.reload := by
  simp [reload, push]

theorem get?_push_of_lt (e : CBlockIndex) {p : BlockPtr} (hp : p < T.entries.length) :
    (T.push e).get? p = T.get? p :=
  List.getElem?_append_left hp

theorem get?_push_length (e : CBlockIndex) : (T.push e).get? T.entries.length = some e := by
  simp [push, get?]

theorem get?_push_of_gt (e : CBlockIndex) {p : BlockPtr} (hp : T.entries.length < p) :
    (T.push e).get? p = none :=
  List.getElem?_eq_none (by simp [push]; omega)

theorem get?_push_eq_some {e : CBlockIndex} {p : BlockPtr} {b : CBlockIndex}
    (hb : (T.push e).get? p = some b) :
    (p < T.entries.length ∧ T.get? p = some b) ∨ (p = T.entries.length ∧ b = e) := by
  rcases Nat.lt_trichotomy p T.entries.length with hp | rfl | hp
  · left
    exact ⟨hp, (get?_push_of_lt e hp).symm.trans hb⟩
  · right
    rw [get?_push_length] at hb
    exact ⟨rfl, (Option.some.inj hb).symm⟩
  · rw [get?_push_of_gt e hp] at hb
    cases hb

/-- Some entry of the arena has the hash `hash`: `mapBlockIndex.count(hash)`. -/
def HasHash (T : BlockTree) (hash : Nat) : Prop := ∃ p b, T.get? p = some b ∧ b.hashBlock = hash

theorem hasHash_of_find? {hash : Nat} {p : BlockPtr} (h : T.find? hash = some p) :
    T.HasHash hash := by
  obtain ⟨hlt, hp, -⟩ := List.findIdx?_eq_some_iff_getElem.mp h
  exact ⟨p, T.entries[p], List.getElem?_eq_getElem hlt, by simpa using hp⟩

theorem hasHash_push (e : CBlockIndex) (hash : Nat) :
    (T.push e).HasHash hash ↔ T.HasHash hash ∨ e.hashBlock = hash := by
  constructor
  · rintro ⟨p, b, hb, rfl⟩
    rcases get?_push_eq_some hb with ⟨-, hb'⟩ | ⟨-, rfl⟩
    · exact .inl ⟨p, b, hb', rfl⟩
    · exact .inr rfl
  · rintro (⟨p, b, hb, rfl⟩ | rfl)
    · exact ⟨p, b, (get?_push_of_lt e (lt_of_get? hb)).trans hb, rfl⟩
    · exact ⟨_, e, get?_push_length e, rfl⟩

theorem heightOf_push_of_lt (e : CBlockIndex) {p : BlockPtr} (hp : p < T.entries.length) :
    (T.push e).heightOf p = T.heightOf p := by
  simp only [heightOf, get?_push_of_lt e hp]

theorem PrevBefore.reload (h : T.PrevBefore) : T.reload.PrevBefore := by
  intro p b q hb hq
  rw [get?_reload] at hb
  obtain ⟨b₀, hb₀, rfl⟩ := Option.map_eq_some_iff.mp hb
  exact h hb₀ hq

end BlockTree

/-! ## Adding an entry leaves the others' specs alone -/

section Frame

open BlockTree

variable {S : BlockTree} (hS : S.PrevBefore) (e : CBlockIndex)
include hS

theorem algoWalk_le (nAlgo : Int32) (fuel : Nat) : ∀ p, algoWalk S nAlgo fuel p ≤ p := by
  induction fuel with
  | zero => intro p; exact Nat.le_refl _
  | succ fuel ih =>
    intro p
    cases hb : S.get? p with
    | none => simp only [algoWalk, hb, Nat.le_refl]
    | some b =>
      cases hq : b.pprev with
      | none => simp only [algoWalk, hb, hq, Nat.le_refl]
      | some q =>
        simp only [algoWalk, hb, hq]
        split
        · exact Nat.le_trans (ih q) (Nat.le_of_lt (hS hb hq))
        · exact Nat.le_refl _

theorem algoWalk_push (nAlgo : Int32) (fuel : Nat) :
    ∀ p, p < S.entries.length → algoWalk (S.push e) nAlgo fuel p = algoWalk S nAlgo fuel p := by
  induction fuel with
  | zero => intro p _; rfl
  | succ fuel ih =>
    intro p hp
    cases hb : S.get? p with
    | none => simp only [algoWalk, get?_push_of_lt e hp, hb]
    | some b =>
      cases hq : b.pprev with
      | none => simp only [algoWalk, get?_push_of_lt e hp, hb, hq]
      | some q => simp only [algoWalk, get?_push_of_lt e hp, hb, hq, ih q (Nat.lt_trans (hS hb hq) hp)]

theorem chainWorkSpec_push (fuel : Nat) :
    ∀ p, p < S.entries.length → chainWorkSpec (S.push e) fuel p = chainWorkSpec S fuel p := by
  induction fuel with
  | zero => intro p _; rfl
  | succ fuel ih =>
    intro p hp
    cases hb : S.get? p with
    | none => simp only [chainWorkSpec, get?_push_of_lt e hp, hb]
    | some b =>
      cases hq : b.pprev with
      | none => simp only [chainWorkSpec, get?_push_of_lt e hp, hb, hq]
      | some q => simp only [chainWorkSpec, get?_push_of_lt e hp, hb, hq, ih q (Nat.lt_trans (hS hb hq) hp)]

theorem timeMaxSpec_push (fuel : Nat) :
    ∀ p, p < S.entries.length → timeMaxSpec (S.push e) fuel p = timeMaxSpec S fuel p := by
  induction fuel with
  | zero => intro p _; rfl
  | succ fuel ih =>
    intro p hp
    cases hb : S.get? p with
    | none => simp only [timeMaxSpec, get?_push_of_lt e hp, hb]
    | some b =>
      cases hq : b.pprev with
      | none => simp only [timeMaxSpec, get?_push_of_lt e hp, hb, hq]
      | some q => simp only [timeMaxSpec, get?_push_of_lt e hp, hb, hq, ih q (Nat.lt_trans (hS hb hq) hp)]

theorem chainWorkAlgoSpec_push (fuel : Nat) :
    ∀ p, p < S.entries.length → chainWorkAlgoSpec (S.push e) fuel p = chainWorkAlgoSpec S fuel p := by
  induction fuel with
  | zero => intro p _; rfl
  | succ fuel ih =>
    intro p hp
    cases hb : S.get? p with
    | none => simp only [chainWorkAlgoSpec, get?_push_of_lt e hp, hb]
    | some b =>
      cases hq : b.pprev with
      | none => simp only [chainWorkAlgoSpec, get?_push_of_lt e hp, hb, hq]
      | some q =>
        have hqp : q < S.entries.length := Nat.lt_trans (hS hb hq) hp
        have hr := Nat.lt_of_le_of_lt (algoWalk_le hS (b.nVersion &&& ALGO_VERSION_MASK)
          (S.heightOf q + 1) q) hqp
        simp only [chainWorkAlgoSpec, get?_push_of_lt e hp, hb, hq, heightOf_push_of_lt e hqp,
          algoWalk_push hS e _ _ q hqp, ih _ hr]

end Frame

/-! ## `AddToBlockIndex` keeps the fields correct -/

/-- What a run of `AddToBlockIndex` keeps: parents exist one level lower and earlier in the
arena, and every entry carries the memory-only fields its stored ancestors determine. -/
structure AddInv (T : BlockTree) : Prop where
  linked : T.Linked
  prev_before : T.PrevBefore
  work : ∀ p, WorkCorrectAt T p

/-- `e` may follow the arena `T`: its parent is an entry one level lower, and without one it
is a genesis entry with no algorithm work yet. -/
structure Appendable (T : BlockTree) (e : CBlockIndex) : Prop where
  root : e.pprev = none → e.nHeight = 0 ∧ e.nChainWorkAlgo = 0
  prev : ∀ q, e.pprev = some q → q < T.entries.length ∧ e.nHeight = T.heightOf q + 1

theorem appendable_newBlockIndex (T : BlockTree) (block : CBlockHeader) :
    Appendable T (newBlockIndex T block) where
  root h := by
    simp only [newBlockIndex] at h ⊢
    simp [h]
  prev q h := by
    simp only [newBlockIndex] at h ⊢
    refine ⟨BlockTree.find?_lt h, ?_⟩
    simp only [h]

section Add

open BlockTree

variable {T : BlockTree} (hI : AddInv T) {e : CBlockIndex} (he : Appendable T e)
include hI

include he

theorem linked_push : (T.push (linkWork T e)).Linked where
  prev_height {p b q} hb hq := by
    rcases get?_push_eq_some hb with ⟨hp, hb⟩ | ⟨rfl, rfl⟩
    · obtain ⟨c, hc, hcb⟩ := hI.linked.prev_height hb hq
      exact ⟨c, by rw [get?_push_of_lt _ (lt_of_get? hc)]; exact hc, hcb⟩
    · rw [linkWork_pprev] at hq
      obtain ⟨hqn, hh⟩ := he.prev q hq
      obtain ⟨c, hc⟩ := exists_get?_of_lt hqn
      refine ⟨c, by rw [get?_push_of_lt _ hqn]; exact hc, ?_⟩
      rw [linkWork_nHeight, hh, heightOf_of_get? hc]
  root_height {p b} hb hq := by
    rcases get?_push_eq_some hb with ⟨-, hb⟩ | ⟨rfl, rfl⟩
    · exact hI.linked.root_height hb hq
    · rw [linkWork_pprev] at hq
      rw [linkWork_nHeight]
      exact (he.root hq).1

theorem prevBefore_push : (T.push (linkWork T e)).PrevBefore := by
  intro p b q hb hq
  rcases get?_push_eq_some hb with ⟨-, hb⟩ | ⟨rfl, rfl⟩
  · exact hI.prev_before hb hq
  · rw [linkWork_pprev] at hq
    exact (he.prev q hq).1

omit he in
/-- The entries already in the arena stay correct against the stored tree with one more
entry. -/
theorem workCorrectIn_push (e' : CBlockIndex) {q : BlockPtr} (hq : q < T.entries.length) :
    WorkCorrectIn (T.reload.push e') T q := by
  intro c hc
  have hS : T.reload.PrevBefore := PrevBefore.reload hI.prev_before
  have hq' : q < T.reload.entries.length := by rw [length_reload]; exact hq
  obtain ⟨hw, ha, ht⟩ := hI.work q c hc
  rw [chainWorkSpec_push hS e' _ q hq', chainWorkAlgoSpec_push hS e' _ q hq',
    timeMaxSpec_push hS e' _ q hq']
  exact ⟨hw, ha, ht⟩

/-- The entry `linkWork` builds from `e` is correct at the end of the arena. -/
theorem workCorrectAt_push_linkWork : WorkCorrectAt (T.push (linkWork T e)) T.entries.length := by
  intro b hb
  rw [get?_push_length] at hb
  cases hb
  have hR : (T.reload.push e.reload).Linked := by
    rw [← linkWork_reload T e, ← reload_push]
    exact reload_linked (linked_push hI he)
  have hget : (T.reload.push e.reload).get? T.entries.length = some e.reload := by
    rw [← length_reload]; exact get?_push_length _
  -- below `e`'s height the stored tree with `e` is the stored tree of `T`
  have hagree : ∀ q, (T.reload.push e.reload).heightOf q < e.nHeight →
      T.reload.get? q = (T.reload.push e.reload).get? q := by
    intro q hq
    rcases Nat.lt_trichotomy q T.entries.length with hlt | rfl | hgt
    · rw [get?_push_of_lt _ (by rw [length_reload]; exact hlt)]
    · rw [heightOf_of_get? hget, CBlockIndex.reload_nHeight] at hq
      omega
    · have hn : T.get? q = none := List.getElem?_eq_none (Nat.le_of_lt hgt)
      rw [get?_push_of_gt _ (by rw [length_reload]; exact hgt), get?_reload, hn]
      rfl
  have hcorrect : ∀ q, (T.reload.push e.reload).heightOf q < e.nHeight →
      WorkCorrectIn (T.reload.push e.reload) T q := by
    intro q _ c hc
    exact workCorrectIn_push hI e.reload (lt_of_get? hc) c hc
  rw [reload_push, linkWork_reload, linkWork_nHeight]
  exact linkWork_correct hR hget hagree hcorrect fun h => (he.root h).2

/-- Appending `linkWork`'s entry keeps the invariant. -/
theorem AddInv.push : AddInv (T.push (linkWork T e)) where
  linked := linked_push hI he
  prev_before := prevBefore_push hI he
  work p := by
    intro b hb
    rcases get?_push_eq_some hb with ⟨hp, hb'⟩ | ⟨rfl, rfl⟩
    · rw [reload_push, linkWork_reload]
      exact workCorrectIn_push hI e.reload hp b hb'
    · exact workCorrectAt_push_linkWork hI he _ hb

end Add

variable {T : BlockTree}

/-- `AddToBlockIndex` keeps the invariant. -/
theorem addInv_addToBlockIndex (hI : AddInv T) (block : CBlockHeader) :
    AddInv (addToBlockIndex T block).1 := by
  unfold addToBlockIndex
  cases T.find? block.hash with
  | some p => exact hI
  | none => exact AddInv.push hI (appendable_newBlockIndex T block)

/-- `AddToBlockIndex` keeps every hash of the arena and adds the header's. -/
theorem hasHash_addToBlockIndex (T : BlockTree) (block : CBlockHeader) (hash : Nat) :
    (addToBlockIndex T block).1.HasHash hash ↔ T.HasHash hash ∨ block.hash = hash := by
  unfold addToBlockIndex
  cases hfind : T.find? block.hash with
  | some p =>
    -- a known hash: the arena is unchanged
    have hknown := BlockTree.hasHash_of_find? hfind
    exact ⟨.inl, fun h => h.elim id fun heq => heq ▸ hknown⟩
  | none =>
    rw [BlockTree.hasHash_push, linkWork_hashBlock]
    rfl

/-- The hashes of the arena after `headers` are those it had and those of `headers`. -/
theorem hasHash_addHeaders (headers : List CBlockHeader) : ∀ (T : BlockTree) (hash : Nat),
    (headers.foldl (fun T block => (addToBlockIndex T block).1) T).HasHash hash ↔
      T.HasHash hash ∨ ∃ block ∈ headers, block.hash = hash := by
  induction headers with
  | nil => intro T hash; simp
  | cons block headers ih =>
    intro T hash
    rw [List.foldl_cons, ih, hasHash_addToBlockIndex]
    simp only [List.mem_cons, exists_eq_or_imp, or_assoc]

theorem addInv_empty : AddInv ⟨[]⟩ where
  linked := ⟨(fun hb => by simp [BlockTree.get?] at hb), (fun hb => by simp [BlockTree.get?] at hb)⟩
  prev_before := fun hb => by simp [BlockTree.get?] at hb
  work _ _ hb := by simp [BlockTree.get?] at hb

/-- A node that has added `headers` one by one, from an empty arena, keeps the invariant. -/
theorem addInv_addHeaders (headers : List CBlockHeader) :
    AddInv (headers.foldl (fun T block => (addToBlockIndex T block).1) ⟨[]⟩) := by
  suffices h : ∀ T, AddInv T → AddInv (headers.foldl (fun T block => (addToBlockIndex T block).1) T) from
    h _ addInv_empty
  induction headers with
  | nil => intro T hI; exact hI
  | cons block headers ih =>
    intro T hI
    exact ih _ (addInv_addToBlockIndex hI block)

/-! ## `LoadBlockIndex` recomputes the fields -/

namespace BlockTree

variable {T : BlockTree}

theorem ext_get? {T' : BlockTree} (h : ∀ p, T.get? p = T'.get? p) : T = T' := by
  cases T
  cases T'
  congr
  exact List.ext_getElem? h

theorem get?_set_self {p : BlockPtr} (hp : p < T.entries.length) (x : CBlockIndex) :
    (⟨T.entries.set p x⟩ : BlockTree).get? p = some x := by
  simp [get?, hp]

theorem get?_set_ne {p q : BlockPtr} (h : q ≠ p) (x : CBlockIndex) :
    (⟨T.entries.set p x⟩ : BlockTree).get? q = T.get? q := by
  simp only [get?, List.getElem?_set, if_neg (Ne.symm h)]

theorem reload_reload : T.reload.reload = T.reload := by
  simp only [reload, List.map_map]
  rfl

end BlockTree

section LoadStep

open BlockTree

variable (T : BlockTree) {p : BlockPtr} {b : CBlockIndex}

theorem loadBlockIndexStep_of_none (hb : T.get? p = none) : loadBlockIndexStep T p = T := by
  simp only [loadBlockIndexStep, hb]

theorem get?_loadBlockIndexStep_ne {q : BlockPtr} (h : q ≠ p) :
    (loadBlockIndexStep T p).get? q = T.get? q := by
  unfold loadBlockIndexStep
  split
  · rfl
  · exact get?_set_ne h _

/-- The pass over `p` gives it `linkWork`'s fields, and a skip pointer. -/
theorem get?_loadBlockIndexStep_self (hb : T.get? p = some b) :
    ∃ s, (loadBlockIndexStep T p).get? p = some { linkWork T b with pskip := s } := by
  have hp := lt_of_get? hb
  simp only [loadBlockIndexStep, hb]
  split
  · exact ⟨_, get?_set_self hp _⟩
  · exact ⟨(linkWork T b).pskip, get?_set_self hp _⟩

/-- A pass changes only what a restart forgets. -/
theorem reload_loadBlockIndexStep : (loadBlockIndexStep T p).reload = T.reload := by
  cases hb : T.get? p with
  | none => rw [loadBlockIndexStep_of_none T hb]
  | some b =>
    obtain ⟨s, hs⟩ := get?_loadBlockIndexStep_self T hb
    apply ext_get?
    intro q
    rw [get?_reload, get?_reload]
    by_cases hq : q = p
    · subst hq
      rw [hs, hb, Option.map_some, Option.map_some, ← linkWork_reload T b]
      rfl
    · rw [get?_loadBlockIndexStep_ne T hq]

end LoadStep

/-- The `LoadBlockIndex` loop over an arena that starts as `T₀`, after the pointers `done`:
nothing a restart keeps has changed, the entries passed over are correct, and the others are
as they were. -/
structure LoadInv (T₀ : BlockTree) (done : List BlockPtr) (T : BlockTree) : Prop where
  reload_eq : T.reload = T₀.reload
  correct : ∀ p ∈ done, WorkCorrectAt T p
  fresh : ∀ p, p ∉ done → T.get? p = T₀.get? p

section Load

open BlockTree

variable {T₀ : BlockTree} (hT₀ : T₀.Linked)
  (hzero : ∀ p b, T₀.get? p = some b → b.pprev = none → b.nChainWorkAlgo = 0)
include hT₀ hzero

/-- The pass over `p` makes `p` correct once every entry below `p`'s height is. -/
theorem workCorrectAt_loadBlockIndexStep {done : List BlockPtr} {T : BlockTree}
    (hI : LoadInv T₀ done T) {p : BlockPtr} (hp : p ∉ done)
    (hbelow : ∀ q c, T₀.get? q = some c → T₀.heightOf q < T₀.heightOf p → q ∈ done) :
    WorkCorrectAt (loadBlockIndexStep T p) p := by
  intro b' hb'
  cases hb : T.get? p with
  | none =>
    rw [loadBlockIndexStep_of_none T hb, hb] at hb'
    cases hb'
  | some b =>
    obtain ⟨s, hs⟩ := get?_loadBlockIndexStep_self T hb
    rw [hs] at hb'
    cases hb'
    have hb₀ : T₀.get? p = some b := (hI.fresh p hp).symm.trans hb
    have hget : T₀.reload.get? p = some b.reload := by rw [get?_reload, hb₀]; rfl
    have hagree : ∀ q, T₀.reload.heightOf q < b.nHeight → T.reload.get? q = T₀.reload.get? q := by
      intro q _
      rw [hI.reload_eq]
    -- entries below `p`'s height were passed over before `p`
    have hcorrect : ∀ q, T₀.reload.heightOf q < b.nHeight → WorkCorrectIn T₀.reload T q := by
      intro q hq c hc
      have hqd : q ∈ done := by
        by_contra hqd
        refine hqd (hbelow q c ((hI.fresh q hqd).symm.trans hc) ?_)
        rw [← heightOf_reload, heightOf_of_get? hb₀]
        exact hq
      have hw := hI.correct q hqd c hc
      rw [hI.reload_eq] at hw
      exact hw
    have hre : (loadBlockIndexStep T p).reload = T₀.reload :=
      (reload_loadBlockIndexStep T).trans hI.reload_eq
    dsimp only
    rw [hre, linkWork_nHeight]
    exact linkWork_correct (reload_linked hT₀) hget hagree hcorrect (hzero p b hb₀)

theorem LoadInv.step {done : List BlockPtr} {T : BlockTree} (hI : LoadInv T₀ done T)
    {p : BlockPtr} (hp : p ∉ done)
    (hbelow : ∀ q c, T₀.get? q = some c → T₀.heightOf q < T₀.heightOf p → q ∈ done) :
    LoadInv T₀ (done ++ [p]) (loadBlockIndexStep T p) := by
  have hre : (loadBlockIndexStep T p).reload = T₀.reload :=
    (reload_loadBlockIndexStep T).trans hI.reload_eq
  refine ⟨hre, ?_, ?_⟩
  · intro q hq
    rcases List.mem_append.mp hq with hq | hq
    · have hqp : q ≠ p := fun h => hp (h ▸ hq)
      intro c hc
      rw [get?_loadBlockIndexStep_ne T hqp] at hc
      have hw := hI.correct q hq c hc
      rw [hI.reload_eq] at hw
      rw [hre]
      exact hw
    · rw [List.mem_singleton.mp hq]
      exact workCorrectAt_loadBlockIndexStep hT₀ hzero hI hp hbelow
  · intro q hq
    rw [List.mem_append, List.mem_singleton, not_or] at hq
    rw [get?_loadBlockIndexStep_ne T hq.2, hI.fresh q hq.1]

/-- The loop over a list of distinct pointers in which no pointer comes after one of greater
height, and which holds every entry. -/
theorem LoadInv.foldl (rest : List BlockPtr) : ∀ done T, LoadInv T₀ done T →
    (done ++ rest).Nodup →
    (done ++ rest).Pairwise (fun p q => ¬T₀.heightOf q < T₀.heightOf p) →
    (∀ q c, T₀.get? q = some c → q ∈ done ++ rest) →
    LoadInv T₀ (done ++ rest) (rest.foldl loadBlockIndexStep T) := by
  induction rest with
  | nil =>
    intro done T hI _ _ _
    rw [List.append_nil]
    exact hI
  | cons p rest ih =>
    intro done T hI hnd hsort hall
    have hpd : p ∉ done := fun h => (List.nodup_append.mp hnd).2.2 p h p List.mem_cons_self rfl
    have hbelow : ∀ q c, T₀.get? q = some c → T₀.heightOf q < T₀.heightOf p → q ∈ done := by
      intro q c hc hh
      rcases List.mem_append.mp (hall q c hc) with hq | hq
      · exact hq
      · exfalso
        rcases List.mem_cons.mp hq with rfl | hq
        · exact Nat.lt_irrefl _ hh
        · exact (List.pairwise_cons.mp (List.pairwise_append.mp hsort).2.1).1 q hq hh
    rw [List.append_cons] at hnd hsort hall ⊢
    exact ih _ _ (hI.step hT₀ hzero hpd hbelow) hnd hsort hall

end Load

/-! ## The order of `vSortedByHeight` -/

section Sorted

variable (T : BlockTree)

theorem sortedByHeight_perm : (sortedByHeight T).Perm (List.range T.entries.length) :=
  List.mergeSort_perm _ _

theorem mem_sortedByHeight {p : BlockPtr} : p ∈ sortedByHeight T ↔ p < T.entries.length := by
  rw [(sortedByHeight_perm T).mem_iff, List.mem_range]

theorem nodup_sortedByHeight : (sortedByHeight T).Nodup :=
  (sortedByHeight_perm T).nodup_iff.mpr List.nodup_range

/-- No pointer of `vSortedByHeight` comes after one of greater height. -/
theorem pairwise_sortedByHeight :
    (sortedByHeight T).Pairwise fun p q => ¬T.heightOf q < T.heightOf p := by
  refine (List.pairwise_mergeSort ?_ ?_ _).imp ?_
  · intro a b c hab hbc
    simp only [decide_eq_true_eq] at hab hbc ⊢
    omega
  · intro a b
    simp only [Bool.or_eq_true, decide_eq_true_eq]
    omega
  · intro a b h
    simp only [decide_eq_true_eq] at h
    omega

end Sorted

/-- `LoadBlockIndex` changes only what a restart forgets. -/
theorem reload_loadBlockIndex (T : BlockTree) : (loadBlockIndex T).reload = T.reload := by
  unfold loadBlockIndex
  generalize sortedByHeight T = L
  induction L generalizing T with
  | nil => rfl
  | cons p L ih => exact (ih _).trans (reload_loadBlockIndexStep T)

/-- After a restart, `LoadBlockIndex` gives every entry of a linked tree the memory-only
fields its stored ancestors determine. -/
theorem workCorrectAt_loadBlockIndex {T : BlockTree} (hT : T.Linked) (p : BlockPtr) :
    WorkCorrectAt (loadBlockIndex T.reload) p := by
  have hzero : ∀ p b, T.reload.get? p = some b → b.pprev = none → b.nChainWorkAlgo = 0 := by
    intro p b hb _
    rw [BlockTree.get?_reload] at hb
    obtain ⟨b₀, -, rfl⟩ := Option.map_eq_some_iff.mp hb
    rfl
  have hI₀ : LoadInv T.reload [] T.reload := ⟨rfl, fun _ h => absurd h List.not_mem_nil, fun _ _ => rfl⟩
  have hI := LoadInv.foldl (BlockTree.reload_linked hT) hzero (sortedByHeight T.reload) [] T.reload hI₀
    (nodup_sortedByHeight _) (pairwise_sortedByHeight _)
    (fun q _ hc => (mem_sortedByHeight _).mpr (BlockTree.lt_of_get? hc))
  rw [List.nil_append] at hI
  by_cases hp : p ∈ sortedByHeight T.reload
  · exact hI.correct p hp
  · intro b hb
    have hlen : T.entries.length ≤ p := by
      rw [mem_sortedByHeight, BlockTree.length_reload] at hp
      exact Nat.le_of_not_lt hp
    have hn : T.get? p = none := List.getElem?_eq_none hlen
    rw [loadBlockIndex, hI.fresh p hp, BlockTree.get?_reload, hn] at hb
    cases hb

/-! ## Skip pointers

`BuildSkip` sets `pskip` with `GetAncestor` over the tree as it stands.  `GetAncestor` is
right on a well-formed tree whichever skip pointers are set (`getAncestor_eq`), so the
pointer it returns is the one `WellFormed` asks for, and both ways of building the tree keep
it well formed: `AddToBlockIndex` when each header's parent is known, and `LoadBlockIndex`
from the stored tree, whose skip pointers are all `nullptr`. -/

namespace BlockTree

variable {T T' : BlockTree}

theorem pprevOf_reload (p : BlockPtr) : T.reload.pprevOf p = T.pprevOf p := by
  simp only [pprevOf, get?_reload]
  cases T.get? p <;> rfl

theorem linked_of_reload (h : T.reload.Linked) : T.Linked where
  prev_height {p b q} hb hq := by
    have hbR : T.reload.get? p = some b.reload := by rw [get?_reload, hb]; rfl
    obtain ⟨c, hc, hcb⟩ := h.prev_height hbR hq
    rw [get?_reload] at hc
    obtain ⟨c₀, hc₀, rfl⟩ := Option.map_eq_some_iff.mp hc
    exact ⟨c₀, hc₀, hcb⟩
  root_height {p b} hb hq := by
    have hbR : T.reload.get? p = some b.reload := by rw [get?_reload, hb]; rfl
    exact h.root_height (b := b.reload) hbR hq

/-- The forest is what a restart keeps of the tree. -/
theorem forest_eq_of_reload_eq (hT : T.Linked) (hT' : T'.Linked) (hre : T'.reload = T.reload) :
    T'.forest hT' = T.forest hT := by
  have hp : T'.pprevOf = T.pprevOf := by
    funext p
    rw [← pprevOf_reload, hre, pprevOf_reload]
  have hh : T'.heightOf = T.heightOf := by
    funext p
    rw [← heightOf_reload, hre, heightOf_reload]
  simp only [forest, ParentForest.mk.injEq]
  exact ⟨hp, hh⟩

/-- A tree that a restart cannot tell from a well-formed one is well formed once its skip
pointers are right. -/
theorem wellFormed_of_reload_eq (hT : T.WellFormed) (hre : T'.reload = T.reload)
    (hskip : ∀ {p b s}, T'.get? p = some b → b.pskip = some s →
      hT.forest.ancestorAt p (getSkipHeight b.nHeight) = some s) : T'.WellFormed := by
  have hT' : T'.Linked := linked_of_reload (hre ▸ reload_linked hT.toLinked)
  have hgen : ∀ {p b}, T'.get? p = some b → ∃ b₀, T.get? p = some b₀ ∧ b₀.nHeight = b.nHeight := by
    intro p b hb
    have hbR : T.reload.get? p = some b.reload := by rw [← hre, get?_reload, hb]; rfl
    rw [get?_reload] at hbR
    obtain ⟨b₀, hb₀, hr⟩ := Option.map_eq_some_iff.mp hbR
    exact ⟨b₀, hb₀, by rw [← CBlockIndex.reload_nHeight b₀, hr, CBlockIndex.reload_nHeight]⟩
  refine { toLinked := hT', genesis_unique := ?_, skip := ?_ }
  · intro p q b c hb hc h0 h0'
    obtain ⟨b₀, hb₀, hbh⟩ := hgen hb
    obtain ⟨c₀, hc₀, hch⟩ := hgen hc
    exact hT.genesis_unique hb₀ hc₀ (hbh.trans h0) (hch.trans h0')
  · intro p b s hb hs
    rw [forest_eq_of_reload_eq hT.toLinked _ hre]
    exact hskip hb hs

/-- Appending an entry leaves the ancestors of the entries already there alone. -/
theorem up_push {x : CBlockIndex} (hT : T.Linked) (hT' : (T.push x).Linked) :
    ∀ k q, q < T.entries.length → ((T.push x).forest hT').up k q = (T.forest hT).up k q
  | 0, _, _ => rfl
  | k + 1, q, hq => by
    have hpp : (T.push x).pprevOf q = T.pprevOf q := by
      simp only [pprevOf, get?_push_of_lt x hq]
    simp only [ParentForest.up, forest, hpp]
    cases hr : T.pprevOf q with
    | none => rfl
    | some r =>
      obtain ⟨b, hb, hbr⟩ := Option.bind_eq_some_iff.mp hr
      obtain ⟨c, hc, -⟩ := hT.prev_height hb hbr
      exact up_push hT hT' k r (lt_of_get? hc)

theorem ancestorAt_push {x : CBlockIndex} (hT : T.Linked) (hT' : (T.push x).Linked) {q : BlockPtr}
    (hq : q < T.entries.length) (h : Nat) :
    ((T.push x).forest hT').ancestorAt q h = (T.forest hT).ancestorAt q h := by
  have hh : ((T.push x).forest hT').height q = (T.forest hT).height q :=
    heightOf_push_of_lt x hq
  simp only [ParentForest.ancestorAt, hh, up_push hT hT' _ q hq]

end BlockTree

/-- `pprev->GetAncestor(GetSkipHeight(nHeight))` is the ancestor at the skip height. -/
theorem getAncestor_skipHeight {T : BlockTree} (hT : T.WellFormed) {q : BlockPtr} {c : CBlockIndex}
    (hc : T.get? q = some c) {s : BlockPtr}
    (h : getAncestor T q (getSkipHeight (c.nHeight + 1)) = some s) :
    hT.forest.ancestorAt q (getSkipHeight (c.nHeight + 1)) = some s := by
  rwa [getAncestor_eq hT hc, if_pos (Int.natCast_nonneg _), Int.toNat_natCast] at h

/-- A child at `c.nHeight + 1` of `q` has at its skip height the ancestor `q` has there. -/
theorem ancestorAt_skipHeight_of_parent {F : ParentForest BlockPtr} {p q : BlockPtr} {n : Nat}
    (hpq : F.parent p = some q) (hn : F.height p = n + 1) :
    F.ancestorAt p (getSkipHeight (n + 1)) = F.ancestorAt q (getSkipHeight (n + 1)) :=
  ParentForest.ancestorAt_of_parent hpq (by rw [hn]; exact getSkipHeight_lt (Nat.succ_pos n))

section AddSkip

open BlockTree

variable {T : BlockTree} (hI : AddInv T) (hT : T.WellFormed) {e : CBlockIndex}
  (he : Appendable T e)
include hI hT he

/-- An entry appended with the skip pointer `BuildSkip` gives it keeps the tree well formed,
if it is a genesis entry only in an empty tree. -/
theorem wellFormed_push (hroot : e.pprev = none → T.entries = [])
    (hskip : e.pskip = e.pprev.bind fun q => getAncestor T q (getSkipHeight e.nHeight)) :
    (T.push (linkWork T e)).WellFormed := by
  have hT' := linked_push hI he
  have hnew : ∀ {c}, (linkWork T e).nHeight = 0 → c < T.entries.length → False := by
    intro c h0 hc
    cases hq : e.pprev with
    | none => simp [hroot hq] at hc
    | some q => rw [linkWork_nHeight, (he.prev q hq).2] at h0; omega
  refine { toLinked := hT', genesis_unique := ?_, skip := ?_ }
  · intro p q b c hb hc h0 h0'
    rcases get?_push_eq_some hb with ⟨hp, hb⟩ | ⟨rfl, rfl⟩ <;>
      rcases get?_push_eq_some hc with ⟨hq, hc⟩ | ⟨rfl, rfl⟩
    · exact hT.genesis_unique hb hc h0 h0'
    · exact (hnew h0' hp).elim
    · exact (hnew h0 hq).elim
    · rfl
  · intro p b s hb hs
    rcases get?_push_eq_some hb with ⟨hp, hb⟩ | ⟨rfl, rfl⟩
    · rw [ancestorAt_push hT.toLinked _ hp]
      exact hT.skip hb hs
    · -- the new entry: `BuildSkip` found the ancestor of its parent at the skip height
      rw [linkWork_pskip, hskip] at hs
      obtain ⟨q, hq, hs⟩ := Option.bind_eq_some_iff.mp hs
      obtain ⟨hqn, hh⟩ := he.prev q hq
      obtain ⟨c, hc⟩ := exists_get?_of_lt hqn
      rw [hh, heightOf_of_get? hc] at hs
      have hpq : ((T.push (linkWork T e)).forest hT').parent T.entries.length = some q := by
        show (T.push (linkWork T e)).pprevOf T.entries.length = some q
        rw [pprevOf_of_get? (get?_push_length _), linkWork_pprev, hq]
      have hheight : ((T.push (linkWork T e)).forest hT').height T.entries.length =
          c.nHeight + 1 := by
        show (T.push (linkWork T e)).heightOf T.entries.length = c.nHeight + 1
        rw [heightOf_of_get? (get?_push_length _), linkWork_nHeight, hh, heightOf_of_get? hc]
      rw [linkWork_nHeight, hh, heightOf_of_get? hc, ancestorAt_skipHeight_of_parent hpq hheight,
        ancestorAt_push hT.toLinked _ hqn]
      exact getAncestor_skipHeight hT hc hs

end AddSkip

/-- `AddToBlockIndex` keeps the tree well formed when the header's parent is known, or the
header is the first. -/
theorem wellFormed_addToBlockIndex {T : BlockTree} (hI : AddInv T) (hT : T.WellFormed)
    (block : CBlockHeader) (hconn : T.entries = [] ∨ T.find? block.hashPrevBlock ≠ none) :
    (addToBlockIndex T block).1.WellFormed := by
  unfold addToBlockIndex
  cases T.find? block.hash with
  | some p => exact hT
  | none =>
    refine wellFormed_push hI hT (appendable_newBlockIndex T block) ?_ ?_
    · intro hnone
      simp only [newBlockIndex] at hnone
      exact hconn.resolve_right (by simpa using hnone)
    · simp only [newBlockIndex]

/-- Each header's parent is known when it is added, as `AcceptBlockHeader` checks, but for the
first. -/
def Connected : BlockTree → List CBlockHeader → Prop
  | _, [] => True
  | T, block :: headers => (T.entries = [] ∨ T.find? block.hashPrevBlock ≠ none) ∧
    Connected (addToBlockIndex T block).1 headers

theorem wellFormed_empty : (⟨[]⟩ : BlockTree).WellFormed where
  toLinked := addInv_empty.linked
  genesis_unique hb := by simp [BlockTree.get?] at hb
  skip hb := by simp [BlockTree.get?] at hb

/-- Adding connected headers one by one from an empty arena builds a well-formed tree. -/
theorem wellFormed_addHeaders (headers : List CBlockHeader) (h : Connected ⟨[]⟩ headers) :
    (headers.foldl (fun T block => (addToBlockIndex T block).1) ⟨[]⟩).WellFormed := by
  suffices hrun : ∀ T, AddInv T → T.WellFormed → Connected T headers →
      (headers.foldl (fun T block => (addToBlockIndex T block).1) T).WellFormed from
    hrun _ addInv_empty wellFormed_empty h
  clear h
  induction headers with
  | nil => intro T _ hT _; exact hT
  | cons block headers ih =>
    intro T hI hT hc
    exact ih _ (addInv_addToBlockIndex hI block) (wellFormed_addToBlockIndex hI hT block hc.1) hc.2

/-- What the pass over `p` writes there: the parent and height stay, and with a parent the
skip pointer is the one `BuildSkip` computes. -/
theorem pskip_loadBlockIndexStep {T : BlockTree} {p : BlockPtr} {b b' : CBlockIndex}
    (hb : T.get? p = some b) (hb' : (loadBlockIndexStep T p).get? p = some b') :
    b'.nHeight = b.nHeight ∧
      b'.pskip = b.pprev.elim b.pskip fun q => getAncestor T q (getSkipHeight b.nHeight) := by
  have hp := BlockTree.lt_of_get? hb
  simp only [loadBlockIndexStep, hb] at hb'
  cases hq : b.pprev with
  | none =>
    simp only [linkWork_pprev, hq] at hb'
    rw [BlockTree.get?_set_self hp] at hb'
    cases hb'
    exact ⟨linkWork_nHeight T b, linkWork_pskip T b⟩
  | some q =>
    simp only [linkWork_pprev, hq] at hb'
    rw [BlockTree.get?_set_self hp] at hb'
    cases hb'
    exact ⟨linkWork_nHeight T b, by simp⟩

/-- The pass over `p` keeps the tree well formed. -/
theorem wellFormed_loadBlockIndexStep {T : BlockTree} (hT : T.WellFormed) (p : BlockPtr) :
    (loadBlockIndexStep T p).WellFormed := by
  refine BlockTree.wellFormed_of_reload_eq hT (reload_loadBlockIndexStep T) ?_
  intro q b' s hb' hs
  by_cases hqp : q = p
  · subst hqp
    cases hb : T.get? q with
    | none =>
      rw [loadBlockIndexStep_of_none T hb, hb] at hb'
      cases hb'
    | some b =>
      obtain ⟨hh, hsk⟩ := pskip_loadBlockIndexStep hb hb'
      rw [hh]
      cases hq : b.pprev with
      | none =>
        rw [hsk, hq] at hs
        exact hT.skip hb hs
      | some r =>
        rw [hsk, hq] at hs
        obtain ⟨c, hc, hcb⟩ := hT.prev_height hb hq
        have hpq : hT.forest.parent q = some r := by
          show T.pprevOf q = some r
          rw [BlockTree.pprevOf_of_get? hb, hq]
        have hheight : hT.forest.height q = c.nHeight + 1 := by
          show T.heightOf q = c.nHeight + 1
          rw [BlockTree.heightOf_of_get? hb, hcb]
        rw [← hcb] at hs ⊢
        rw [ancestorAt_skipHeight_of_parent hpq hheight]
        exact getAncestor_skipHeight hT hc hs
  · rw [get?_loadBlockIndexStep_ne T hqp] at hb'
    exact hT.skip hb' hs

/-- After a restart, `LoadBlockIndex` gives a well-formed tree back its skip pointers, and
leaves it well formed. -/
theorem wellFormed_loadBlockIndex {T : BlockTree} (hT : T.WellFormed) :
    (loadBlockIndex T.reload).WellFormed := by
  have hR : T.reload.WellFormed := by
    refine BlockTree.wellFormed_of_reload_eq hT BlockTree.reload_reload ?_
    intro p b s hb hs
    rw [BlockTree.get?_reload] at hb
    obtain ⟨b₀, -, rfl⟩ := Option.map_eq_some_iff.mp hb
    cases hs
  suffices hrun : ∀ (L : List BlockPtr) (T' : BlockTree), T'.WellFormed →
      (L.foldl loadBlockIndexStep T').WellFormed from hrun _ _ hR
  intro L
  induction L with
  | nil => intro T' h; exact h
  | cons p L ih => intro T' h; exact ih _ (wellFormed_loadBlockIndexStep h p)

/-! ## Before and after a restart -/

/-- A node that has added `headers` one by one holds an entry for each of them and for
nothing else; it restarts: `LoadBlockIndex` gives every entry back the memory-only fields
`AddToBlockIndex` gave it, and these are the fields the entry's ancestors determine. -/
theorem addToBlockIndex_loadBlockIndex_agree (headers : List CBlockHeader) :
    let T := headers.foldl (fun T block => (addToBlockIndex T block).1) ⟨[]⟩
    (∀ hash, T.HasHash hash ↔ ∃ block ∈ headers, block.hash = hash) ∧
    ∃ hT : T.Linked, ∀ p b, T.get? p = some b →
      (∃ b', (loadBlockIndex T.reload).get? p = some b' ∧ b'.reload = b.reload ∧
        b'.nChainWork = b.nChainWork ∧ b'.nChainWorkAlgo = b.nChainWorkAlgo ∧
        b'.nTimeMax = b.nTimeMax) ∧
      FieldsOfAncestors hT p b := by
  intro T
  have hI : AddInv T := addInv_addHeaders headers
  have hempty : ∀ hash, ¬(⟨[]⟩ : BlockTree).HasHash hash := by
    rintro hash ⟨p, b, hb, -⟩
    simp [BlockTree.get?] at hb
  refine ⟨fun hash => (hasHash_addHeaders headers _ hash).trans (or_iff_right (hempty hash)),
    hI.linked, fun p b hb => ⟨?_, fieldsOfAncestors_of_workCorrectAt hI.linked hI.work hb⟩⟩
  -- the reloaded entry at `p` is `b` as the database stores it
  have hre := reload_loadBlockIndex T.reload
  rw [BlockTree.reload_reload] at hre
  have hget : (loadBlockIndex T.reload).reload.get? p = some b.reload := by
    rw [hre, BlockTree.get?_reload, hb]
    rfl
  rw [BlockTree.get?_reload] at hget
  obtain ⟨b', hb', hbr⟩ := Option.map_eq_some_iff.mp hget
  have hh : b'.nHeight = b.nHeight := by
    rw [← CBlockIndex.reload_nHeight b', hbr, CBlockIndex.reload_nHeight]
  obtain ⟨h1, h2, h3⟩ := workCorrectAt_loadBlockIndex hI.linked p b' hb'
  obtain ⟨g1, g2, g3⟩ := hI.work p b hb
  rw [hre, hh] at h1 h2 h3
  exact ⟨b', hb', hbr, h1.trans g1.symm, h2.trans g2.symm, h3.trans g3.symm⟩

/-! ## `GetAncestor` on every tree the node builds -/

/-- On a well-formed tree `GetAncestor(h)` is `nullptr` exactly outside `0 .. nHeight`, and
inside it is the block `nHeight - h` steps along `pprev`, so the walk ends and never fails
its `assert(pprev)`; the trees `AddToBlockIndex` and `LoadBlockIndex` build are well formed;
and every skip height is below its height. -/
theorem getAncestor_skiplist :
    (∀ T : BlockTree, T.WellFormed → ∀ (p : BlockPtr) (b : CBlockIndex), T.get? p = some b →
      ∀ h : Int, (getAncestor T p h = none ↔ h < 0 ∨ b.nHeight < h) ∧
        (0 ≤ h → h ≤ b.nHeight → ∃ a, (fun o => o.bind T.pprevOf)^[b.nHeight - h.toNat] (some p) =
          some a ∧ getAncestor T p h = some a)) ∧
    (∀ headers : List CBlockHeader, Connected ⟨[]⟩ headers →
      (headers.foldl (fun T block => (addToBlockIndex T block).1) ⟨[]⟩).WellFormed) ∧
    (∀ T : BlockTree, T.WellFormed → (loadBlockIndex T.reload).WellFormed) ∧
    (∀ n : Nat, 1 ≤ n → getSkipHeight n < n) := by
  refine ⟨?_, wellFormed_addHeaders, fun T hT => wellFormed_loadBlockIndex hT,
    fun n hn => getSkipHeight_lt hn⟩
  intro T hT p b hb h
  have hhp : hT.forest.height p = b.nHeight := BlockTree.heightOf_of_get? hb
  -- inside the range the ancestor exists, and it is the one `nHeight - h` links up
  have hin : 0 ≤ h → h ≤ b.nHeight → ∃ a, (fun o => o.bind T.pprevOf)^[b.nHeight - h.toNat]
      (some p) = some a ∧ getAncestor T p h = some a := by
    intro h0 hle
    obtain ⟨a, ha⟩ := ParentForest.exists_up (F := hT.forest) (k := b.nHeight - h.toNat) (a := p)
      (by omega)
    refine ⟨a, by rw [iterate_bind_pprevOf hT, Option.bind_some, ha], ?_⟩
    rw [getAncestor_eq hT hb, if_pos h0, ParentForest.ancestorAt, if_pos (by omega), hhp, ha]
  refine ⟨⟨fun hnone => ?_, fun hout => ?_⟩, hin⟩
  · by_contra hrange
    obtain ⟨a, -, ha⟩ := hin (by omega) (by omega)
    rw [ha] at hnone
    cases hnone
  · simp only [getAncestor, hb]
    rw [if_pos (by omega)]

theorem getAncestor_skiplist_two_headers :
    let headers : List CBlockHeader := [⟨1, 0, 0, 0, 0⟩, ⟨2, 1, 0, 0, 0⟩]
    let T := headers.foldl (fun T block => (addToBlockIndex T block).1) ⟨[]⟩
    Connected ⟨[]⟩ headers ∧ T.WellFormed ∧ getAncestor T 1 3 = none ∧ getSkipHeight 2 < 2 := by
  intro headers T
  have hc : Connected ⟨[]⟩ headers := ⟨.inl rfl, .inr (by decide), trivial⟩
  have hT := getAncestor_skiplist.2.1 headers hc
  obtain ⟨b, hb⟩ : ∃ b, T.get? 1 = some b := ⟨_, rfl⟩
  have hh : b.nHeight = 1 := by
    rw [← BlockTree.heightOf_of_get? hb]
    decide
  refine ⟨hc, hT, (getAncestor_skiplist.1 T hT 1 b hb 3).1.mpr (.inr (by omega)),
    getAncestor_skiplist.2.2.2 2 (by decide)⟩

end Veles
