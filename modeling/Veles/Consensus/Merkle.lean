import Mathlib
import Veles.Lib.ListGetD

/-!
# Merkle roots

`ComputeMerkleRoot(hashes, mutated)` (consensus/merkle.cpp) replaces the list of hashes by
the hashes of its pairs until one is left, duplicating the last hash of an odd level.  It
reports a mutation when two hashes of a pair are equal at any level.  The test suite's
`BlockBuildMerkleTree` builds the same levels one after the other in a flat vector and
reports only a pair of equal hashes at the end of a level.

The pair hash `SHA256D64` is any function `H` here, and hashes are any type with a zero,
`uint256()`.  Both constructions compute `merkleRoot`, the level recursion, and
`BlockBuildMerkleTree`'s flag implies `ComputeMerkleRoot`'s.  For an injective `H` that
never yields a leaf, two different leaf lists with one root make one of the two flags
true: the defence against CVE-2012-2459 is complete.

    computeMerkleRoot H hashes = (merkleRoot H hashes, merkleMutated H hashes)
    blockBuildMerkleTree H leaves = (merkleRoot H leaves, merkleEndMutated H leaves)
    merkleRoot H A = merkleRoot H B → A = B ∨ merkleMutated H A ∨ merkleMutated H B
-/

namespace Veles

open ListGetD

variable {α : Type} (H : α → α → α)

/-! ## `ComputeMerkleRoot` -/

/-- `SHA256D64(out, in, blocks)` in place: the hash of each pair of the list. -/
def sha256D64 : List α → List α
  | a :: b :: rest => H a b :: sha256D64 rest
  | _ => []

/-- `if (hashes.size() & 1) hashes.push_back(hashes.back());` -/
def padLevel (hashes : List α) : List α :=
  if hashes.length % 2 = 1 then hashes ++ hashes.getLast?.toList else hashes

/-- `for (pos = 0; pos + 1 < hashes.size(); pos += 2) if (hashes[pos] == hashes[pos + 1])`:
two equal hashes in one pair. -/
def hasEqualPair [DecidableEq α] : List α → Bool
  | a :: b :: rest => a == b || hasEqualPair rest
  | _ => false

/-- The next level: the pair hashes of the padded level. -/
def merkleNext (hashes : List α) : List α := sha256D64 H (padLevel hashes)

/-- `while (hashes.size() > 1)`, with the flag so far; each pass at least halves the list, so
its length is enough fuel. -/
def computeMerkleRootLoop [DecidableEq α] : Nat → List α → Bool → List α × Bool
  | 0, hashes, mutation => (hashes, mutation)
  | fuel + 1, hashes, mutation =>
    if 1 < hashes.length then
      computeMerkleRootLoop fuel (merkleNext H hashes) (mutation || hasEqualPair hashes)
    else (hashes, mutation)

/-- `ComputeMerkleRoot(hashes, &mutated)`: the root, `uint256()` for no hashes, and the
mutation flag. -/
def computeMerkleRoot [DecidableEq α] [Zero α] (hashes : List α) : α × Bool :=
  let r := computeMerkleRootLoop H hashes.length hashes false
  (r.1.headD 0, r.2)

/-! ## `BlockBuildMerkleTree` -/

/-- `for (int i = 0; i < nSize; i += 2)`: append the hash of the pair at `i` of the level at
`j`, the last hash paired with itself; flag two equal hashes closing the level. -/
def buildLevelLoop [DecidableEq α] [Zero α] (j nSize : Nat) :
    Nat → Nat → List α → Bool → List α × Bool
  | 0, _, vMerkleTree, mutated => (vMerkleTree, mutated)
  | fuel + 1, i, vMerkleTree, mutated =>
    if i < nSize then
      let i2 := min (i + 1) (nSize - 1)
      -- Two identical hashes at the end of the list at a particular level.
      let mutated := mutated || (i2 == i + 1 && i2 + 1 == nSize &&
        vMerkleTree.getD (j + i) 0 == vMerkleTree.getD (j + i2) 0)
      buildLevelLoop j nSize fuel (i + 2)
        (vMerkleTree ++ [H (vMerkleTree.getD (j + i) 0) (vMerkleTree.getD (j + i2) 0)]) mutated
    else (vMerkleTree, mutated)

/-- `for (int nSize = vtx.size(); nSize > 1; nSize = (nSize + 1) / 2)`, the level at `j`. -/
def buildMerkleTreeLoop [DecidableEq α] [Zero α] :
    Nat → List α → Nat → Nat → Bool → List α × Bool
  | 0, vMerkleTree, _, _, mutated => (vMerkleTree, mutated)
  | fuel + 1, vMerkleTree, j, nSize, mutated =>
    if 1 < nSize then
      let r := buildLevelLoop H j nSize nSize 0 vMerkleTree mutated
      buildMerkleTreeLoop fuel r.1 (j + nSize) ((nSize + 1) / 2) r.2
    else (vMerkleTree, mutated)

/-- `BlockBuildMerkleTree(block, &fMutated, vMerkleTree)` on the block's transaction hashes:
the last node of the tree, `uint256()` for none, and the flag. -/
def blockBuildMerkleTree [DecidableEq α] [Zero α] (leaves : List α) : α × Bool :=
  let r := buildMerkleTreeLoop H leaves.length leaves 0 leaves.length false
  (r.1.getLastD 0, r.2)

/-! ## The level recursion

`merkleRoot` hashes level after level while more than one hash is left; `merkleMutated`
and `merkleEndMutated` collect the two flags over the levels, `merkleDepth` counts them. -/

section Spec

theorem length_sha256D64 : ∀ l : List α, (sha256D64 H l).length = l.length / 2
  | a :: b :: rest => by
    simp only [sha256D64, List.length_cons, length_sha256D64 rest]
    omega
  | [] => by simp [sha256D64]
  | [_] => by simp [sha256D64]

theorem length_padLevel (l : List α) : (padLevel l).length = l.length + l.length % 2 := by
  unfold padLevel
  split_ifs with h
  · cases hl : l.getLast? with
    | none => simp_all
    | some a => simp [h]
  · omega

theorem length_merkleNext (l : List α) : (merkleNext H l).length = (l.length + 1) / 2 := by
  rw [merkleNext, length_sha256D64, length_padLevel]
  omega

theorem length_padLevel_even (l : List α) : (padLevel l).length % 2 = 0 := by
  rw [length_padLevel]
  omega

/-- Hash `t` of `SHA256D64`'s output is the hash of the input pair at `2 * t`. -/
theorem getD_sha256D64 (d : α) : ∀ (l : List α) (t : Nat), 2 * t + 1 < l.length →
    (sha256D64 H l).getD t d = H (l.getD (2 * t) d) (l.getD (2 * t + 1) d)
  | _ :: _ :: _, 0, _ => by simp [sha256D64]
  | _ :: _ :: rest, t + 1, h => by
    have h' : 2 * t + 1 < rest.length := by simp only [List.length_cons] at h; omega
    simp only [sha256D64, List.getD_cons_succ, getD_sha256D64 d rest t h', Nat.mul_succ]

/-- The padded level reads the level with the index clamped to its last hash. -/
theorem getD_padLevel (d : α) (l : List α) (k : Nat) (hk : k < (padLevel l).length) :
    (padLevel l).getD k d = l.getD (min k (l.length - 1)) d := by
  rw [length_padLevel] at hk
  unfold padLevel
  split_ifs with h
  · obtain ⟨ys, a, rfl⟩ : ∃ ys a, l = ys ++ [a] :=
      ⟨l.dropLast, l.getLast (List.ne_nil_of_length_pos (by omega)),
        (List.dropLast_append_getLast _).symm⟩
    simp only [List.length_append, List.length_singleton] at hk ⊢
    rcases Nat.lt_or_ge k (ys.length + 1) with hlt | hge
    · rw [List.getD_append _ _ _ _ (by simpa using hlt), Nat.min_eq_left (by omega)]
    · rw [List.getD_append_right _ _ _ _ (by simpa using hge), Nat.min_eq_right (by omega)]
      simp [show k - (ys.length + 1) = 0 by omega]
  · rw [Nat.min_eq_left (by omega)]

/-- Hash `t` of the next level is the hash of the pair at `2 * t`, the last hash of an odd
level paired with itself. -/
theorem getD_merkleNext (d : α) (l : List α) (t : Nat) (ht : t < (l.length + 1) / 2) :
    (merkleNext H l).getD t d =
      H (l.getD (2 * t) d) (l.getD (min (2 * t + 1) (l.length - 1)) d) := by
  have hp := length_padLevel l
  rw [merkleNext, getD_sha256D64 H d _ t (by omega), getD_padLevel d l _ (by omega),
    getD_padLevel d l _ (by omega), Nat.min_eq_left (by omega)]

/-- The root: the single hash left after the levels, `uint256()` for no hashes. -/
def merkleRoot [Zero α] (hashes : List α) : α :=
  if 1 < hashes.length then merkleRoot (merkleNext H hashes) else hashes.headD 0
termination_by hashes.length
decreasing_by rw [length_merkleNext]; omega

/-- Two equal hashes of a pair at some level. -/
def merkleMutated [DecidableEq α] (hashes : List α) : Bool :=
  if 1 < hashes.length then hasEqualPair hashes || merkleMutated (merkleNext H hashes) else false
termination_by hashes.length
decreasing_by rw [length_merkleNext]; omega

/-- A level of even length closing with two equal hashes. -/
def endPair [DecidableEq α] [Zero α] (hashes : List α) : Bool :=
  decide (2 ≤ hashes.length ∧ hashes.length % 2 = 0 ∧
    hashes.getD (hashes.length - 2) 0 = hashes.getD (hashes.length - 1) 0)

/-- Some level closes with two equal hashes. -/
def merkleEndMutated [DecidableEq α] [Zero α] (hashes : List α) : Bool :=
  if 1 < hashes.length then endPair hashes || merkleEndMutated (merkleNext H hashes) else false
termination_by hashes.length
decreasing_by rw [length_merkleNext]; omega

/-- The number of levels above the leaves. -/
def merkleDepth (hashes : List α) : Nat :=
  if 1 < hashes.length then merkleDepth (merkleNext H hashes) + 1 else 0
termination_by hashes.length
decreasing_by rw [length_merkleNext]; omega

variable {H} {l : List α}

theorem merkleDepth_of_lt (h : 1 < l.length) :
    merkleDepth H l = merkleDepth H (merkleNext H l) + 1 := by
  rw [merkleDepth, if_pos h]

theorem merkleDepth_of_le (h : l.length ≤ 1) : merkleDepth H l = 0 := by
  rw [merkleDepth, if_neg (by omega)]

section Zero

variable [Zero α]

theorem merkleRoot_of_lt (h : 1 < l.length) : merkleRoot H l = merkleRoot H (merkleNext H l) := by
  rw [merkleRoot, if_pos h]

theorem merkleRoot_of_le (h : l.length ≤ 1) : merkleRoot H l = l.headD 0 := by
  rw [merkleRoot, if_neg (by omega)]

end Zero

variable [DecidableEq α]

theorem merkleMutated_of_lt (h : 1 < l.length) :
    merkleMutated H l = (hasEqualPair l || merkleMutated H (merkleNext H l)) := by
  rw [merkleMutated, if_pos h]

theorem merkleMutated_of_le (h : l.length ≤ 1) : merkleMutated H l = false := by
  rw [merkleMutated, if_neg (by omega)]

variable [Zero α]

theorem merkleEndMutated_of_lt (h : 1 < l.length) :
    merkleEndMutated H l = (endPair l || merkleEndMutated H (merkleNext H l)) := by
  rw [merkleEndMutated, if_pos h]

theorem merkleEndMutated_of_le (h : l.length ≤ 1) : merkleEndMutated H l = false := by
  rw [merkleEndMutated, if_neg (by omega)]

end Spec

/-! ## `ComputeMerkleRoot` computes the levels -/

section Production

variable [DecidableEq α] [Zero α]

/-- With as much fuel as hashes, the loop ends with the root and the flags of every level. -/
theorem computeMerkleRootLoop_eq : ∀ (fuel : Nat) (hashes : List α) (mutation : Bool),
    hashes.length ≤ fuel →
    (computeMerkleRootLoop H fuel hashes mutation).1.headD 0 = merkleRoot H hashes ∧
      (computeMerkleRootLoop H fuel hashes mutation).2 = (mutation || merkleMutated H hashes) := by
  intro fuel
  induction fuel with
  | zero =>
    intro hashes mutation h
    have h0 : hashes.length ≤ 1 := by omega
    rw [merkleRoot_of_le h0, merkleMutated_of_le h0, Bool.or_false]
    exact ⟨rfl, rfl⟩
  | succ fuel ih =>
    intro hashes mutation h
    rw [computeMerkleRootLoop]
    split_ifs with hlt
    · -- one pass hashes the level and flags its equal pairs
      have hn := length_merkleNext H hashes
      obtain ⟨h1, h2⟩ := ih (merkleNext H hashes) (mutation || hasEqualPair hashes) (by omega)
      rw [merkleRoot_of_lt hlt, merkleMutated_of_lt hlt, h2, Bool.or_assoc]
      exact ⟨h1, rfl⟩
    · have hle : hashes.length ≤ 1 := by omega
      rw [merkleRoot_of_le hle, merkleMutated_of_le hle, Bool.or_false]
      exact ⟨rfl, rfl⟩

theorem computeMerkleRoot_eq (hashes : List α) :
    computeMerkleRoot H hashes = (merkleRoot H hashes, merkleMutated H hashes) := by
  obtain ⟨h1, h2⟩ := computeMerkleRootLoop_eq H hashes.length hashes false le_rfl
  rw [Bool.false_or] at h2
  simp only [computeMerkleRoot, h1, h2]

end Production

/-! ## `BlockBuildMerkleTree` computes the levels

The tree holds the levels one after the other; the level of length `nSize` starts at `j`,
after the levels below it, and the loop over its pairs appends the next level. -/

section Reference

variable [DecidableEq α] [Zero α]

omit [DecidableEq α] [Zero α] in
/-- Position `k` of the level at `pre.length`, whatever the tree holds after it. -/
theorem getD_level (d : α) (pre L acc : List α) (k : Nat) (hk : k < L.length) :
    (pre ++ L ++ acc).getD (pre.length + k) d = L.getD k d := by
  rw [List.append_assoc, List.getD_append_right _ _ _ _ (by omega), Nat.add_sub_cancel_left,
    List.getD_append _ _ _ _ hk]

/-- The pair at `2 * t` raises the flag exactly when it closes an even level with two equal
hashes; otherwise the flag is left to the pairs after it. -/
theorem closingPair_flag (L : List α) (t : Nat) :
    ((min (2 * t + 1) (L.length - 1) == 2 * t + 1 &&
        min (2 * t + 1) (L.length - 1) + 1 == L.length &&
        L.getD (2 * t) 0 == L.getD (min (2 * t + 1) (L.length - 1)) 0) ||
      (decide (2 * (t + 1 + 1) ≤ L.length) && endPair L)) =
    (decide (2 * (t + 1) ≤ L.length) && endPair L) := by
  unfold endPair
  simp only [beq_eq_decide, ← Bool.decide_and, ← Bool.decide_or, decide_eq_decide]
  constructor
  · rintro (⟨⟨h1, h2⟩, h3⟩ | ⟨h1, h2, h3, h4⟩)
    · -- the pair at `2 * t` is the closing pair of an even level
      have e1 : L.length - 2 = 2 * t := by omega
      have e2 : L.length - 1 = min (2 * t + 1) (L.length - 1) := by omega
      exact ⟨by omega, by omega, by omega, by rw [e1, e2]; exact h3⟩
    · exact ⟨by omega, h2, h3, h4⟩
  · rintro ⟨h1, h2, h3, h4⟩
    rcases Nat.eq_or_lt_of_le h1 with h | h
    · left
      have e1 : L.length - 2 = 2 * t := by omega
      have e2 : L.length - 1 = min (2 * t + 1) (L.length - 1) := by omega
      exact ⟨⟨by omega, by omega⟩, by rwa [e1, e2] at h4⟩
    · exact Or.inr ⟨by omega, h2, h3, h4⟩

/-- The loop over the pairs of one level, from the pair at `2 * t` with `k` pairs left:
it appends the rest of the next level and raises the flag if the closing pair is ahead. -/
theorem buildLevelLoop_eq (pre L : List α) : ∀ (k t fuel : Nat) (m : Bool),
    t + k = (L.length + 1) / 2 → k < fuel →
    buildLevelLoop H pre.length L.length fuel (2 * t) (pre ++ L ++ (merkleNext H L).take t) m =
      (pre ++ L ++ merkleNext H L, m || (decide (2 * (t + 1) ≤ L.length) && endPair L)) := by
  have hn := length_merkleNext H L
  intro k
  induction k with
  | zero =>
    intro t fuel m ht hf
    obtain ⟨fuel, rfl⟩ : ∃ f, fuel = f + 1 := ⟨fuel - 1, by omega⟩
    -- every pair is done: `i < nSize` fails and the flag has nothing left to see
    rw [buildLevelLoop, if_neg (by omega), List.take_of_length_le (by omega),
      decide_eq_false (by omega), Bool.false_and, Bool.or_false]
  | succ k ih =>
    intro t fuel m ht hf
    obtain ⟨fuel, rfl⟩ : ∃ f, fuel = f + 1 := ⟨fuel - 1, by omega⟩
    have hi : 2 * t < L.length := by omega
    have hi2 : min (2 * t + 1) (L.length - 1) < L.length := by omega
    rw [buildLevelLoop, if_pos hi]
    dsimp only
    rw [getD_level 0 pre L _ _ hi, getD_level 0 pre L _ _ hi2,
      ← getD_merkleNext H 0 L t (by omega), List.append_assoc (pre ++ L),
      take_append_getD 0 _ t (by omega), show 2 * t + 2 = 2 * (t + 1) by ring,
      ih (t + 1) fuel _ (by omega) (by omega), Bool.or_assoc, closingPair_flag]

/-- The loop over the levels, from the level `L` at `pre.length`: the tree ends with the
root and the flag collects the closing pairs of every level. -/
theorem buildMerkleTreeLoop_eq : ∀ (fuel : Nat) (pre L : List α) (m : Bool),
    0 < L.length → L.length ≤ fuel →
    (buildMerkleTreeLoop H fuel (pre ++ L) pre.length L.length m).1.getLastD 0 =
        merkleRoot H L ∧
      (buildMerkleTreeLoop H fuel (pre ++ L) pre.length L.length m).2 =
        (m || merkleEndMutated H L) := by
  intro fuel
  induction fuel with
  | zero => intro pre L m h0 h; omega
  | succ fuel ih =>
    intro pre L m h0 h
    rw [buildMerkleTreeLoop]
    split_ifs with hlt
    · -- one level: its pairs are appended, then the level above is built from there
      have hn := length_merkleNext H L
      have hlevel := buildLevelLoop_eq H pre L ((L.length + 1) / 2) 0 L.length m
        (by omega) (by omega)
      rw [Nat.mul_zero, List.take_zero, List.append_nil, Nat.zero_add,
        decide_eq_true (by omega : 2 * 1 ≤ L.length), Bool.true_and] at hlevel
      dsimp only
      rw [hlevel, ← hn, show pre.length + L.length = (pre ++ L).length from
        (List.length_append ..).symm, merkleRoot_of_lt hlt, merkleEndMutated_of_lt hlt,
        ← Bool.or_assoc]
      exact ih (pre ++ L) (merkleNext H L) _ (by omega) (by omega)
    · -- a single hash: the root is the last node
      obtain ⟨a, rfl⟩ : ∃ a, L = [a] := List.length_eq_one_iff.mp (by omega)
      rw [merkleRoot_of_le (by simp), merkleEndMutated_of_le (by simp), Bool.or_false]
      simp

/-- `BlockBuildMerkleTree` computes the root of the levels and flags their closing pairs. -/
theorem blockBuildMerkleTree_eq (leaves : List α) :
    blockBuildMerkleTree H leaves = (merkleRoot H leaves, merkleEndMutated H leaves) := by
  cases leaves with
  | nil =>
    rw [merkleRoot_of_le (by simp), merkleEndMutated_of_le (by simp)]
    rfl
  | cons a rest =>
    obtain ⟨h1, h2⟩ := buildMerkleTreeLoop_eq H (a :: rest).length [] (a :: rest) false
      (by simp) le_rfl
    rw [List.nil_append, List.length_nil] at h1 h2
    rw [Bool.false_or] at h2
    simp only [blockBuildMerkleTree, h1, h2]

omit [Zero α] in
/-- A pair of equal hashes at `2 * k` is seen by `ComputeMerkleRoot`'s scan. -/
theorem hasEqualPair_of_getD (d : α) : ∀ (l : List α) (k : Nat), 2 * k + 1 < l.length →
    l.getD (2 * k) d = l.getD (2 * k + 1) d → hasEqualPair l = true
  | _ :: _ :: _, 0, _, h => by simp_all [hasEqualPair]
  | _ :: _ :: rest, k + 1, hk, h => by
    have hk' : 2 * k + 1 < rest.length := by simp only [List.length_cons] at hk; omega
    simp only [Nat.mul_succ, List.getD_cons_succ] at h
    rw [hasEqualPair, hasEqualPair_of_getD d rest k hk' h, Bool.or_true]

/-- The closing pair of an even level is one of its pairs. -/
theorem hasEqualPair_of_endPair (l : List α) (h : endPair l = true) : hasEqualPair l = true := by
  simp only [endPair, decide_eq_true_eq] at h
  obtain ⟨h2, hev, heq⟩ := h
  apply hasEqualPair_of_getD 0 l (l.length / 2 - 1) (by omega)
  rwa [show 2 * (l.length / 2 - 1) = l.length - 2 by omega,
    show l.length - 2 + 1 = l.length - 1 by omega]

/-- `BlockBuildMerkleTree`'s flag implies `ComputeMerkleRoot`'s. -/
theorem merkleMutated_of_merkleEndMutated (l : List α) (h : merkleEndMutated H l = true) :
    merkleMutated H l = true := by
  fun_induction merkleEndMutated H l with
  | case1 l hlt ih =>
    rw [merkleMutated_of_lt hlt]
    rcases Bool.or_eq_true_iff.mp h with h | h
    · rw [hasEqualPair_of_endPair l h, Bool.true_or]
    · rw [ih h, Bool.or_true]
  | case2 => exact absurd h Bool.false_ne_true

end Reference

/-! ## Equal roots of different leaves are flagged

CVE-2012-2459: duplicating the last hash of an odd level gives a list with the same root.
When `H` is injective, one level determines the padded level below it, and a padded level
determines the level up to a duplicated closing pair, which the scan flags.  Leaves at
different depths with one root make the shallower list a level of the deeper one, whose
hashes are outputs of `H`. -/

section Collision

variable {H}

theorem merkleDepth_pos_iff {l : List α} : 0 < merkleDepth H l ↔ 1 < l.length := by
  constructor
  · intro h
    by_contra hle
    rw [merkleDepth_of_le (by omega)] at h
    exact Nat.lt_irrefl 0 h
  · intro h
    rw [merkleDepth_of_lt h]
    exact Nat.succ_pos _

theorem merkleNext_ne_nil {l : List α} (h : l ≠ []) : merkleNext H l ≠ [] := by
  have hn := length_merkleNext H l
  have hl := List.length_pos_of_ne_nil h
  exact List.ne_nil_of_length_pos (by omega)

theorem mem_sha256D64 {x : α} : ∀ l : List α, x ∈ sha256D64 H l → ∃ a b, x = H a b
  | _ :: _ :: rest, h => by
    rcases List.mem_cons.mp h with rfl | h
    · exact ⟨_, _, rfl⟩
    · exact mem_sha256D64 rest h
  | [], h | [_], h => by simp [sha256D64] at h

theorem iterate_merkleNext_ne_nil {l : List α} (h : l ≠ []) :
    ∀ k : Nat, (merkleNext H)^[k] l ≠ []
  | 0 => h
  | k + 1 => by
    rw [Function.iterate_succ_apply']
    exact merkleNext_ne_nil (iterate_merkleNext_ne_nil h k)

/-- A level above the leaves holds only outputs of `H`. -/
theorem mem_iterate_merkleNext {l : List α} {x : α} {k : Nat} (hk : 0 < k)
    (hx : x ∈ (merkleNext H)^[k] l) : ∃ a b, x = H a b := by
  obtain ⟨k, rfl⟩ : ∃ j, k = j + 1 := ⟨k - 1, by omega⟩
  rw [Function.iterate_succ_apply'] at hx
  exact mem_sha256D64 _ hx

/-- An odd level is some `X ++ [a]` with `X` even, padded to `X ++ [a, a]`. -/
theorem padLevel_of_odd {A : List α} (h : A.length % 2 = 1) :
    ∃ X a, A = X ++ [a] ∧ padLevel A = X ++ [a, a] ∧ X.length % 2 = 0 := by
  obtain ⟨X, a, rfl⟩ : ∃ X a, A = X ++ [a] :=
    ⟨A.dropLast, A.getLast (List.ne_nil_of_length_pos (by omega)),
      (List.dropLast_append_getLast _).symm⟩
  simp only [List.length_append, List.length_singleton] at h
  refine ⟨X, a, rfl, ?_, by omega⟩
  simp [padLevel, h]

theorem padLevel_of_even {A : List α} (h : A.length % 2 = 0) : padLevel A = A := by
  simp [padLevel, h]

/-- An injective pair hash determines the level of even length below its output. -/
theorem sha256D64_inj (hH : Function.Injective (Function.uncurry H)) :
    ∀ l₁ l₂ : List α, l₁.length % 2 = 0 → l₂.length % 2 = 0 →
      sha256D64 H l₁ = sha256D64 H l₂ → l₁ = l₂
  | [], [], _, _, _ => rfl
  | [], _ :: _ :: _, _, _, h | _ :: _ :: _, [], _, _, h => by simp [sha256D64] at h
  | a :: b :: r₁, c :: d :: r₂, h₁, h₂, h => by
    simp only [sha256D64, List.cons.injEq] at h
    obtain ⟨hab, hr⟩ := h
    have hp : (a, b) = (c, d) := hH hab
    obtain ⟨rfl, rfl⟩ := Prod.mk.inj hp
    simp only [List.length_cons] at h₁ h₂
    rw [sha256D64_inj hH r₁ r₂ (by omega) (by omega) hr]
  | [_], _, h₁, _, _ => by simp at h₁
  | _, [_], _, h₂, _ => by simp at h₂

variable [DecidableEq α]

theorem hasEqualPair_append_pair (X : List α) (a : α) (hX : X.length % 2 = 0) :
    hasEqualPair (X ++ [a, a]) = true := by
  apply hasEqualPair_of_getD a _ (X.length / 2) (by simp; omega)
  rw [List.getD_append_right _ _ _ _ (by omega), List.getD_append_right _ _ _ _ (by omega),
    show 2 * (X.length / 2) - X.length = 0 by omega,
    show 2 * (X.length / 2) + 1 - X.length = 1 by omega]
  rfl

/-- Two levels with one padded level are equal, or one of them ends with a duplicated pair. -/
theorem padLevel_eq_padLevel {A B : List α} (h : padLevel A = padLevel B) :
    A = B ∨ hasEqualPair A = true ∨ hasEqualPair B = true := by
  rcases Nat.mod_two_eq_zero_or_one A.length with hA | hA <;>
    rcases Nat.mod_two_eq_zero_or_one B.length with hB | hB
  · rw [padLevel_of_even hA, padLevel_of_even hB] at h
    exact Or.inl h
  · -- `A` is `B` with its last hash duplicated
    obtain ⟨Y, b, -, hpB, hY⟩ := padLevel_of_odd hB
    rw [padLevel_of_even hA, hpB] at h
    exact Or.inr (Or.inl (h ▸ hasEqualPair_append_pair Y b hY))
  · obtain ⟨X, a, -, hpA, hX⟩ := padLevel_of_odd hA
    rw [padLevel_of_even hB, hpA] at h
    exact Or.inr (Or.inr (h ▸ hasEqualPair_append_pair X a hX))
  · obtain ⟨X, a, rfl, hpA, -⟩ := padLevel_of_odd hA
    obtain ⟨Y, b, rfl, hpB, -⟩ := padLevel_of_odd hB
    rw [hpA, hpB] at h
    have hlen : X.length = Y.length := by
      have := congrArg List.length h
      simp only [List.length_append, List.length_cons, List.length_nil] at this
      omega
    obtain ⟨rfl, hab⟩ := List.append_inj h hlen
    obtain ⟨rfl, -⟩ := List.cons.inj hab
    exact Or.inl rfl

theorem merkleNext_eq_merkleNext (hH : Function.Injective (Function.uncurry H)) {A B : List α}
    (h : merkleNext H A = merkleNext H B) :
    A = B ∨ hasEqualPair A = true ∨ hasEqualPair B = true :=
  padLevel_eq_padLevel
    (sha256D64_inj hH _ _ (length_padLevel_even A) (length_padLevel_even B) h)

variable [Zero α]

/-- Leaves of one depth with one root and no flag are equal. -/
theorem eq_of_merkleRoot_eq (hH : Function.Injective (Function.uncurry H)) :
    ∀ (d : Nat) (A B : List α), merkleDepth H A = d → merkleDepth H B = d → A ≠ [] → B ≠ [] →
      merkleRoot H A = merkleRoot H B → merkleMutated H A = false → merkleMutated H B = false →
      A = B := by
  intro d
  induction d with
  | zero =>
    -- the leaves are single hashes, their own roots
    intro A B hdA hdB hA hB hroot _ _
    have hlA : A.length ≤ 1 :=
      Nat.le_of_not_lt fun h => absurd ((merkleDepth_pos_iff (H := H)).mpr h) (by omega)
    have hlB : B.length ≤ 1 :=
      Nat.le_of_not_lt fun h => absurd ((merkleDepth_pos_iff (H := H)).mpr h) (by omega)
    obtain ⟨a, rfl⟩ := List.length_eq_one_iff.mp
      (Nat.le_antisymm hlA (List.length_pos_of_ne_nil hA))
    obtain ⟨b, rfl⟩ := List.length_eq_one_iff.mp
      (Nat.le_antisymm hlB (List.length_pos_of_ne_nil hB))
    rw [merkleRoot_of_le hlA, merkleRoot_of_le hlB] at hroot
    rw [show a = b from hroot]
  | succ d ih =>
    -- the levels above are equal, so the levels are, or one has an equal pair
    intro A B hdA hdB hA hB hroot hmA hmB
    have hlA : 1 < A.length := (merkleDepth_pos_iff).mp (show 0 < merkleDepth H A by omega)
    have hlB : 1 < B.length := (merkleDepth_pos_iff).mp (show 0 < merkleDepth H B by omega)
    rw [merkleDepth_of_lt hlA] at hdA
    rw [merkleDepth_of_lt hlB] at hdB
    rw [merkleRoot_of_lt hlA, merkleRoot_of_lt hlB] at hroot
    rw [merkleMutated_of_lt hlA, Bool.or_eq_false_iff] at hmA
    rw [merkleMutated_of_lt hlB, Bool.or_eq_false_iff] at hmB
    have hnext := ih _ _ (by omega) (by omega) (merkleNext_ne_nil hA) (merkleNext_ne_nil hB)
      hroot hmA.2 hmB.2
    rcases merkleNext_eq_merkleNext hH hnext with h | h | h
    · exact h
    · exact absurd h (by rw [hmA.1]; exact Bool.false_ne_true)
    · exact absurd h (by rw [hmB.1]; exact Bool.false_ne_true)

/-- `k` levels up from leaves of depth at least `k`: the root is kept, the depth drops by
`k`, and a flag there is a flag of the leaves. -/
theorem merkleNext_iterate : ∀ (k : Nat) (l : List α), k ≤ merkleDepth H l →
    merkleRoot H ((merkleNext H)^[k] l) = merkleRoot H l ∧
      merkleDepth H ((merkleNext H)^[k] l) = merkleDepth H l - k ∧
      (merkleMutated H ((merkleNext H)^[k] l) = true → merkleMutated H l = true)
  | 0, _, _ => ⟨rfl, rfl, id⟩
  | k + 1, l, hk => by
    have hlt : 1 < l.length := (merkleDepth_pos_iff).mp (show 0 < merkleDepth H l by omega)
    have hd := merkleDepth_of_lt (H := H) hlt
    obtain ⟨hroot, hdepth, hmut⟩ := merkleNext_iterate k (merkleNext H l) (by omega)
    rw [Function.iterate_succ_apply, hroot, hdepth, ← merkleRoot_of_lt hlt, hd,
      merkleMutated_of_lt hlt]
    exact ⟨rfl, by omega, fun h => by rw [hmut h, Bool.or_true]⟩

/-- Equal roots of different leaves, the first of depth at most the second's, whose leaves
`H` never yields: one of the two is flagged. -/
theorem merkleMutated_of_merkleRoot_eq_of_le (hH : Function.Injective (Function.uncurry H))
    {A B : List α} (hA : A ≠ []) (hB : B ≠ []) (hAB : A ≠ B) (hleaf : ∀ a b, H a b ∉ A)
    (hd : merkleDepth H A ≤ merkleDepth H B) (hroot : merkleRoot H A = merkleRoot H B) :
    merkleMutated H A = true ∨ merkleMutated H B = true := by
  by_contra hne
  simp only [not_or, Bool.not_eq_true] at hne
  obtain ⟨hmA, hmB⟩ := hne
  -- `C`, the level of `B` at the depth of `A`, has the root, the depth and no flag
  obtain ⟨hroot', hdepth', hmut'⟩ :=
    merkleNext_iterate (merkleDepth H B - merkleDepth H A) B (Nat.sub_le _ _)
  have hmC : merkleMutated H ((merkleNext H)^[merkleDepth H B - merkleDepth H A] B) = false := by
    cases hC : merkleMutated H ((merkleNext H)^[merkleDepth H B - merkleDepth H A] B)
    · rfl
    · rw [hmut' hC] at hmB
      exact hmB
  have hAC := eq_of_merkleRoot_eq hH (merkleDepth H A) A _ rfl (by omega) hA
    (iterate_merkleNext_ne_nil hB _) (hroot.trans hroot'.symm) hmA hmC
  rcases Nat.eq_zero_or_pos (merkleDepth H B - merkleDepth H A) with h0 | hpos
  · -- the same depth: `C` is `B`
    rw [h0] at hAC
    exact hAB hAC
  · -- `A` is a level above `B`, made of outputs of `H`
    obtain ⟨x, hx⟩ := List.exists_mem_of_ne_nil A hA
    obtain ⟨a, b, rfl⟩ := mem_iterate_merkleNext hpos (hAC ▸ hx)
    exact hleaf a b hx

/-- For an injective `H` that never yields a leaf, different leaves with one root are
flagged by one of the two computations. -/
theorem merkleMutated_of_merkleRoot_eq (hH : Function.Injective (Function.uncurry H))
    {A B : List α} (hA : A ≠ []) (hB : B ≠ []) (hAB : A ≠ B)
    (hleaf : ∀ a b, H a b ∉ A ∧ H a b ∉ B) (hroot : merkleRoot H A = merkleRoot H B) :
    merkleMutated H A = true ∨ merkleMutated H B = true := by
  rcases le_total (merkleDepth H A) (merkleDepth H B) with hd | hd
  · exact merkleMutated_of_merkleRoot_eq_of_le hH hA hB hAB (fun a b => (hleaf a b).1) hd hroot
  · exact (merkleMutated_of_merkleRoot_eq_of_le hH hB hA (Ne.symm hAB)
      (fun a b => (hleaf a b).2) hd hroot.symm).symm

end Collision

/-! ## `ComputeMerkleRoot` against `BlockBuildMerkleTree` -/

section Main

variable [DecidableEq α] [Zero α]

/-- `ComputeMerkleRoot` returns the root of `BlockBuildMerkleTree`, `uint256()` for no leaves,
and flags at least what it flags; for an injective `H` that never yields a leaf, two different
leaf lists with one root are flagged by one of the two calls. -/
theorem computeMerkleRoot_agrees_and_flags_collisions :
    (computeMerkleRoot H []).1 = 0 ∧
    (∀ leaves : List α,
      (computeMerkleRoot H leaves).1 = (blockBuildMerkleTree H leaves).1 ∧
        ((blockBuildMerkleTree H leaves).2 = true → (computeMerkleRoot H leaves).2 = true)) ∧
    (Function.Injective (Function.uncurry H) →
      ∀ L₁ L₂ : List α, (∀ a b, H a b ∉ L₁ ∧ H a b ∉ L₂) → L₁ ≠ [] → L₂ ≠ [] → L₁ ≠ L₂ →
        (computeMerkleRoot H L₁).1 = (computeMerkleRoot H L₂).1 →
        (computeMerkleRoot H L₁).2 = true ∨ (computeMerkleRoot H L₂).2 = true) := by
  refine ⟨?_, fun leaves => ?_, fun hH L₁ L₂ hleaf h₁ h₂ hne hroot => ?_⟩
  · rw [computeMerkleRoot_eq, merkleRoot_of_le (by simp)]
    rfl
  · rw [computeMerkleRoot_eq, blockBuildMerkleTree_eq]
    exact ⟨rfl, merkleMutated_of_merkleEndMutated H leaves⟩
  · rw [computeMerkleRoot_eq, computeMerkleRoot_eq] at hroot ⊢
    exact merkleMutated_of_merkleRoot_eq hH h₁ h₂ hne hleaf hroot

/-- CVE-2012-2459 at three leaves: `[0, 1, 2]` and `[0, 1, 2, 2]` have one root under an
injective hash above the leaves, and the longer one is flagged. -/
theorem computeMerkleRoot_duplicated_leaf :
    (computeMerkleRoot (fun a b => Nat.pair a b + 3) [0, 1, 2]).1 =
        (computeMerkleRoot (fun a b => Nat.pair a b + 3) [0, 1, 2, 2]).1 ∧
      ((computeMerkleRoot (fun a b => Nat.pair a b + 3) [0, 1, 2]).2 = true ∨
        (computeMerkleRoot (fun a b => Nat.pair a b + 3) [0, 1, 2, 2]).2 = true) := by
  have hH : Function.Injective (Function.uncurry fun a b : Nat => Nat.pair a b + 3) := by
    rintro ⟨a, b⟩ ⟨c, d⟩ h
    simp only [Function.uncurry_apply_pair, Nat.add_right_cancel_iff, Nat.pair_eq_pair] at h
    rw [h.1, h.2]
  have hroot : (computeMerkleRoot (fun a b => Nat.pair a b + 3) [0, 1, 2]).1 =
      (computeMerkleRoot (fun a b => Nat.pair a b + 3) [0, 1, 2, 2]).1 := by decide
  refine ⟨hroot, (computeMerkleRoot_agrees_and_flags_collisions _).2.2 hH [0, 1, 2] [0, 1, 2, 2]
    (fun a b => ⟨by simp, by simp⟩) (by simp) (by simp) (by decide) hroot⟩

end Main

end Veles
