import Mathlib
import Veles.Consensus.Merkle
import Veles.Primitives.Transaction

/-!
# Partial merkle trees

`CPartialMerkleTree` (merkleblock.cpp) proves that some txids are leaves of a block's
merkle tree.  `TraverseAndBuild` walks the tree depth first from the root and writes one
bit per node visited (is it above a matched leaf?) and one hash per node where it stops (a
leaf, or a node with nothing matched below).  `TraverseAndExtract` walks the same nodes,
reading the bits and hashes back, and recomputes the root from them.

The pair hash is any `H` and hashes are any type with a zero, as in `Veles.Consensus.Merkle`.
What the builder writes below a node is `encodeSubtree`.  The extractor reads exactly that
back and returns the node's hash and the matched leaves below it, from any position in the
streams (`traverseAndExtract_encodeSubtree`).  It needs two sibling subtrees to have
different hashes, which holds when the txids are distinct and a node's hash determines its
left child (`calcHash_injective`):

    calcHash H n vTxid h pos = ((merkleNext H)^[h] vTxid).getD pos 0        (calcHash_eq)
    traverseAndBuild vTxid vMatch h pos T =
      { T with vBits := T.vBits ++ (encodeSubtree ..).1, vHash := T.vHash ++ (encodeSubtree ..).2 }

On the wire the bits are packed least significant first into `(vBits.size()+7)/8` bytes;
reading them back gives the bits followed by the zero padding (`unpackBits_packBits`), and
`ExtractMatches`' check `(nBitsUsed+7)/8 == (vBits.size()+7)/8` is there to accept that.
-/

namespace Veles

/-- `CPartialMerkleTree`. -/
structure CPartialMerkleTree (α : Type) where
  nTransactions : UInt32
  vBits : List Bool
  vHash : List α
  fBad : Bool

/-- `MAX_BLOCK_WEIGHT` (consensus/consensus.h). -/
def MAX_BLOCK_WEIGHT : Nat := 4000000

/-- `WITNESS_SCALE_FACTOR` (consensus/consensus.h). -/
def WITNESS_SCALE_FACTOR : Nat := 4

/-- `MIN_TRANSACTION_WEIGHT`: 60 is the lower bound for the size of a valid serialized
`CTransaction`. -/
def MIN_TRANSACTION_WEIGHT : Nat := WITNESS_SCALE_FACTOR * 60

section Tree

variable {α : Type} [Zero α] (H : α → α → α)

/-! ## Building -/

/-- `CalcTreeWidth(height)`: `(nTransactions+(1 << height)-1) >> height`, the number of nodes
at `height`.  The sum is computed without wrapping: `ExtractMatches` bounds `nTransactions`
by `MAX_BLOCK_WEIGHT / MIN_TRANSACTION_WEIGHT` before any width is taken. -/
def calcTreeWidth (nTransactions height : Nat) : Nat :=
  (nTransactions + 2 ^ height - 1) / 2 ^ height

/-- `CalcHash(height, pos, vTxid)`; an odd last node is paired with itself. -/
def calcHash (nTransactions : Nat) (vTxid : List α) : Nat → Nat → α
  | 0, pos => vTxid.getD pos 0
  | height + 1, pos =>
    let left := calcHash nTransactions vTxid height (pos * 2)
    let right := if pos * 2 + 1 < calcTreeWidth nTransactions height then
      calcHash nTransactions vTxid height (pos * 2 + 1) else left
    H left right

/-- The loop `for (p = pos << height; p < (pos+1) << height && p < nTransactions; p++)
fParentOfMatch |= vMatch[p];`. -/
def parentOfMatch (nTransactions : Nat) (vMatch : List Bool) (height pos : Nat) : Bool :=
  (List.range' (pos * 2 ^ height) (2 ^ height)).any fun p =>
    decide (p < nTransactions) && vMatch.getD p false

/-- `TraverseAndBuild(height, pos, vTxid, vMatch)`, appending to the tree's `vBits` and
`vHash`. -/
def traverseAndBuild (vTxid : List α) (vMatch : List Bool) :
    Nat → Nat → CPartialMerkleTree α → CPartialMerkleTree α
  | 0, pos, T =>
    let fParentOfMatch := parentOfMatch T.nTransactions.toNat vMatch 0 pos
    { T with vBits := T.vBits ++ [fParentOfMatch],
             vHash := T.vHash ++ [calcHash H T.nTransactions.toNat vTxid 0 pos] }
  | height + 1, pos, T =>
    let n := T.nTransactions.toNat
    let fParentOfMatch := parentOfMatch n vMatch (height + 1) pos
    let T := { T with vBits := T.vBits ++ [fParentOfMatch] }
    if !fParentOfMatch then { T with vHash := T.vHash ++ [calcHash H n vTxid (height + 1) pos] }
    else
      let T := traverseAndBuild vTxid vMatch height (pos * 2) T
      if pos * 2 + 1 < calcTreeWidth n height then
        traverseAndBuild vTxid vMatch height (pos * 2 + 1) T
      else T

/-- `while (CalcTreeWidth(nHeight) > 1) nHeight++;`, with the fuel `nTransactions`, which the
loop never exhausts (`calcTreeWidth_self`). -/
def treeHeightLoop (nTransactions : Nat) : Nat → Nat → Nat
  | 0, nHeight => nHeight
  | fuel + 1, nHeight =>
    if calcTreeWidth nTransactions nHeight > 1 then treeHeightLoop nTransactions fuel (nHeight + 1)
    else nHeight

/-- The height of the tree: the least height of width at most one. -/
def treeHeight (nTransactions : Nat) : Nat := treeHeightLoop nTransactions nTransactions 0

/-- The constructor `CPartialMerkleTree(vTxid, vMatch)`. -/
def partialMerkleTree (vTxid : List α) (vMatch : List Bool) : CPartialMerkleTree α :=
  let T : CPartialMerkleTree α := ⟨vTxid.length.toUInt32, [], [], false⟩
  traverseAndBuild H vTxid vMatch (treeHeight T.nTransactions.toNat) 0 T

/-! ## Extracting -/

/-- The counters and outputs of `TraverseAndExtract`, and the tree's `fBad`. -/
structure ExtractState (α : Type) where
  nBitsUsed : Nat
  nHashUsed : Nat
  vMatch : List α
  vnIndex : List Nat
  fBad : Bool

/-- The branch `height==0 || !fParentOfMatch` of `TraverseAndExtract`: take the next stored
hash, and at a leaf record a match. -/
def extractHash (T : CPartialMerkleTree α) (height pos : Nat) (fParentOfMatch : Bool)
    (st : ExtractState α) : α × ExtractState α :=
  if hh : st.nHashUsed < T.vHash.length then
    let hash := T.vHash.get ⟨st.nHashUsed, hh⟩
    let st := { st with nHashUsed := st.nHashUsed + 1 }
    if height = 0 ∧ fParentOfMatch = true then
      (hash, { st with vMatch := st.vMatch ++ [hash], vnIndex := st.vnIndex ++ [pos] })
    else (hash, st)
  else (0, { st with fBad := true })

variable [DecidableEq α]

/-- `TraverseAndExtract(height, pos, nBitsUsed, nHashUsed, vMatch, vnIndex)`.  Both reads are
behind the source's bounds tests, so they are total here. -/
def traverseAndExtract (T : CPartialMerkleTree α) : Nat → Nat → ExtractState α → α × ExtractState α
  | 0, pos, st =>
    if hb : st.nBitsUsed < T.vBits.length then
      extractHash T 0 pos (T.vBits.get ⟨st.nBitsUsed, hb⟩) { st with nBitsUsed := st.nBitsUsed + 1 }
    else (0, { st with fBad := true })
  | height + 1, pos, st =>
    if hb : st.nBitsUsed < T.vBits.length then
      let fParentOfMatch := T.vBits.get ⟨st.nBitsUsed, hb⟩
      let st := { st with nBitsUsed := st.nBitsUsed + 1 }
      if !fParentOfMatch then extractHash T (height + 1) pos fParentOfMatch st
      else
        let l := traverseAndExtract T height (pos * 2) st
        if pos * 2 + 1 < calcTreeWidth T.nTransactions.toNat height then
          let r := traverseAndExtract T height (pos * 2 + 1) l.2
          -- the two subtrees cover different txids, so equal hashes are a forgery
          (H l.1 r.1, if r.1 = l.1 then { r.2 with fBad := true } else r.2)
        else (H l.1 l.1, l.2)
    else (0, { st with fBad := true })

/-- `ExtractMatches(vMatch, vnIndex)`: the root (`uint256()` on failure), the matched txids
(`vMatch` is cleared first), `vnIndex` with the matched positions appended, and the tree with
the `fBad` the traversal left. -/
def CPartialMerkleTree.extractMatches (T : CPartialMerkleTree α) (vnIndex : List Nat) :
    (α × List α × List Nat) × CPartialMerkleTree α :=
  let n := T.nTransactions.toNat
  if n = 0 then ((0, [], vnIndex), T)
  else if n > MAX_BLOCK_WEIGHT / MIN_TRANSACTION_WEIGHT then ((0, [], vnIndex), T)
  else if T.vHash.length > n then ((0, [], vnIndex), T)
  else if T.vBits.length < T.vHash.length then ((0, [], vnIndex), T)
  else
    let r := traverseAndExtract H T (treeHeight n) 0 ⟨0, 0, [], vnIndex, T.fBad⟩
    let st := r.2
    let T := { T with fBad := st.fBad }
    if st.fBad then ((0, st.vMatch, st.vnIndex), T)
    else if (st.nBitsUsed + 7) / 8 ≠ (T.vBits.length + 7) / 8 then ((0, st.vMatch, st.vnIndex), T)
    else if st.nHashUsed ≠ T.vHash.length then ((0, st.vMatch, st.vnIndex), T)
    else ((r.1, st.vMatch, st.vnIndex), T)

end Tree

/-! ## On the wire -/

/-- `vBytes.resize((vBits.size()+7)/8); for (p = 0; p < vBits.size(); p++)
vBytes[p / 8] |= vBits[p] << (p % 8);` -/
def packBits (vBits : List Bool) : List UInt8 :=
  (List.range vBits.length).foldl
    (fun vBytes p =>
      vBytes.modify (p / 8) (· ||| (if vBits.getD p false then 1 else 0) <<< (p % 8).toUInt8))
    (List.replicate ((vBits.length + 7) / 8) 0)

/-- `vBits.resize(vBytes.size() * 8); for (p = 0; p < vBits.size(); p++)
vBits[p] = (vBytes[p / 8] & (1 << (p % 8))) != 0;` -/
def unpackBits (vBytes : List UInt8) : List Bool :=
  (List.range (vBytes.length * 8)).map fun p =>
    vBytes.getD (p / 8) 0 &&& (1 <<< (p % 8).toUInt8) != 0

/-- `CPartialMerkleTree::SerializationOp` writing. -/
def serializePartialMerkleTree (T : CPartialMerkleTree (Vector UInt8 32)) : List UInt8 :=
  serWritedata32 T.nTransactions ++ serializeVector serializeUint256 T.vHash ++
    serializeBytes (packBits T.vBits)

/-- `CPartialMerkleTree::SerializationOp` reading; `fBad` is cleared. -/
def unserializePartialMerkleTree (s : List UInt8) :
    Except String (CPartialMerkleTree (Vector UInt8 32) × List UInt8) := do
  let (nTransactions, s) ← serReaddata32 s
  let (vHash, s) ← unserializeVector unserializeUint256 s
  let (vBytes, s) ← unserializeBytes s
  pure (⟨nTransactions, unpackBits vBytes, vHash, false⟩, s)

/-! ## Widths and node hashes -/

section Levels

variable {α : Type} (H : α → α → α)

@[simp] theorem calcTreeWidth_zero (n : Nat) : calcTreeWidth n 0 = n := by
  simp [calcTreeWidth]

/-- A level has half as many nodes as the one below, rounded up. -/
theorem calcTreeWidth_succ (n h : Nat) :
    calcTreeWidth n (h + 1) = (calcTreeWidth n h + 1) / 2 := by
  have hpos : 0 < 2 ^ h := Nat.two_pow_pos h
  unfold calcTreeWidth
  rw [← Nat.add_div_right _ hpos, Nat.div_div_eq_div_mul, Nat.pow_succ]
  congr 1
  omega

/-- Node `pos` of `height` exists when its first leaf does. -/
theorem lt_calcTreeWidth_iff {n h pos : Nat} : pos < calcTreeWidth n h ↔ pos * 2 ^ h < n := by
  have hpos : 0 < 2 ^ h := Nat.two_pow_pos h
  rw [calcTreeWidth, Nat.lt_iff_add_one_le, Nat.le_div_iff_mul_le hpos, Nat.add_mul, Nat.one_mul]
  omega

theorem calcTreeWidth_le_one_iff {n h : Nat} : calcTreeWidth n h ≤ 1 ↔ n ≤ 2 ^ h := by
  have : ¬ 1 < calcTreeWidth n h ↔ ¬ 1 * 2 ^ h < n := (lt_calcTreeWidth_iff).not
  rw [Nat.one_mul] at this
  omega

theorem calcTreeWidth_pos {n : Nat} (hn : 0 < n) (h : Nat) : 0 < calcTreeWidth n h :=
  (lt_calcTreeWidth_iff).mpr (by rw [Nat.zero_mul]; exact hn)

/-- At height `nTransactions` the width is at most one, so `treeHeightLoop` has fuel enough. -/
theorem calcTreeWidth_self (n : Nat) : calcTreeWidth n n ≤ 1 :=
  (calcTreeWidth_le_one_iff).mpr (Nat.lt_two_pow_self).le

/-- The widths are the lengths of `ComputeMerkleRoot`'s levels. -/
theorem length_iterate_merkleNext (l : List α) :
    ∀ h, ((merkleNext H)^[h] l).length = calcTreeWidth l.length h
  | 0 => by simp
  | h + 1 => by
    rw [Function.iterate_succ_apply', length_merkleNext, length_iterate_merkleNext l h,
      calcTreeWidth_succ]

variable [Zero α] {n : Nat} {vTxid : List α} (hn : vTxid.length = n)
include hn

/-- `CalcHash` reads the levels of `ComputeMerkleRoot`: the odd last node is paired with
itself in both. -/
theorem calcHash_eq :
    ∀ h pos, pos < calcTreeWidth n h → calcHash H n vTxid h pos = ((merkleNext H)^[h] vTxid).getD pos 0
  | 0, pos, _ => rfl
  | h + 1, pos, hpos => by
    have hw := calcTreeWidth_succ n h
    have hlen := length_iterate_merkleNext H vTxid h
    rw [hn] at hlen
    rw [Function.iterate_succ_apply', getD_merkleNext H 0 _ pos (by omega), hlen]
    simp only [calcHash]
    rw [calcHash_eq h (pos * 2) (by omega), Nat.mul_comm pos 2]
    split
    · next hright =>
      rw [calcHash_eq h (2 * pos + 1) (by omega), Nat.min_eq_left (by omega)]
    · next hright =>
      rw [Nat.min_eq_right (by omega), show calcTreeWidth n h - 1 = 2 * pos by omega]

/-- A node's hash determines its position when the txids are distinct and a node's hash
determines its left child. -/
theorem calcHash_injective (hH : ∀ a b c d, H a b = H c d → a = c) (hnd : vTxid.Nodup) :
    ∀ h p q, p < calcTreeWidth n h → q < calcTreeWidth n h →
      calcHash H n vTxid h p = calcHash H n vTxid h q → p = q
  | 0, p, q, hp, hq, heq => by
    rw [calcTreeWidth_zero, ← hn] at hp hq
    simp only [calcHash, List.getD_eq_getElem _ _ hp, List.getD_eq_getElem _ _ hq] at heq
    exact (hnd.getElem_inj_iff).mp heq
  | h + 1, p, q, hp, hq, heq => by
    have hw := calcTreeWidth_succ n h
    have hleft := hH _ _ _ _ heq
    have := calcHash_injective hH hnd h (p * 2) (q * 2) (by omega) (by omega) hleft
    omega

end Levels

/-! ## Matched leaves -/

section Matches

/-- The matched positions below node `pos` of `height`, in increasing order. -/
def matchedIn (n : Nat) (vMatch : List Bool) (height pos : Nat) : List Nat :=
  (List.range' (pos * 2 ^ height) (2 ^ height)).filter fun p =>
    decide (p < n) && vMatch.getD p false

variable {n : Nat} {vMatch : List Bool}

theorem parentOfMatch_eq_false_iff {h pos : Nat} :
    parentOfMatch n vMatch h pos = false ↔ matchedIn n vMatch h pos = [] := by
  rw [parentOfMatch, matchedIn, List.any_eq_false, List.filter_eq_nil_iff]

theorem matchedIn_zero (pos : Nat) :
    matchedIn n vMatch 0 pos = if parentOfMatch n vMatch 0 pos then [pos] else [] := by
  simp [matchedIn, parentOfMatch, List.filter_cons]

/-- A node's matches are those of its left child, then those of its right child. -/
theorem matchedIn_succ (h pos : Nat) :
    matchedIn n vMatch (h + 1) pos = matchedIn n vMatch h (pos * 2) ++ matchedIn n vMatch h (pos * 2 + 1) := by
  have e1 : pos * 2 ^ (h + 1) = pos * 2 * 2 ^ h := by ring
  have e2 : (pos * 2 + 1) * 2 ^ h = pos * 2 * 2 ^ h + 1 * 2 ^ h := by ring
  have e3 : 2 ^ (h + 1) = 2 ^ h + 2 ^ h := by ring
  rw [matchedIn, matchedIn, matchedIn, ← List.filter_append, e1, e3, e2, List.range'_append]

/-- Past the end of a level there is nothing to match. -/
theorem matchedIn_eq_nil {h pos : Nat} (hw : calcTreeWidth n h ≤ pos) : matchedIn n vMatch h pos = [] := by
  have hge : n ≤ pos * 2 ^ h := Nat.le_of_not_lt (mt (lt_calcTreeWidth_iff).mpr (by omega))
  rw [matchedIn, List.filter_eq_nil_iff]
  intro p hp
  rw [List.mem_range'_1] at hp
  simp [show ¬ p < n by omega]

/-- Below the root of a tree of `n` leaves, the matches are the matched positions under `n`. -/
theorem matchedIn_root {h : Nat} (hw : calcTreeWidth n h ≤ 1) :
    matchedIn n vMatch h 0 = (List.range n).filter fun p => vMatch.getD p false := by
  have hle : n ≤ 2 ^ h := (calcTreeWidth_le_one_iff).mp hw
  have hsplit : List.range' 0 (2 ^ h) = List.range' 0 n ++ List.range' (0 + 1 * n) (2 ^ h - n) := by
    rw [List.range'_append, Nat.add_sub_cancel' hle]
  rw [matchedIn, Nat.zero_mul, hsplit, List.filter_append, List.range_eq_range']
  have hhigh : (List.range' (0 + 1 * n) (2 ^ h - n)).filter
      (fun p => decide (p < n) && vMatch.getD p false) = [] := by
    rw [List.filter_eq_nil_iff]
    intro p hp
    rw [List.mem_range'_1] at hp
    simp [show ¬ p < n by omega]
  rw [hhigh, List.append_nil]
  apply List.filter_congr
  intro p hp
  rw [List.mem_range'_1] at hp
  simp [show p < n by omega]

end Matches


/-! ## What the builder writes -/

section Build

variable {α : Type} [Zero α] (H : α → α → α) (n : Nat) (vTxid : List α) (vMatch : List Bool)

/-- The bits and the hashes `TraverseAndBuild(height, pos)` appends, depth first. -/
def encodeSubtree : Nat → Nat → List Bool × List α
  | 0, pos => ([parentOfMatch n vMatch 0 pos], [calcHash H n vTxid 0 pos])
  | height + 1, pos =>
    if !parentOfMatch n vMatch (height + 1) pos then ([false], [calcHash H n vTxid (height + 1) pos])
    else
      let l := encodeSubtree height (pos * 2)
      let r := if pos * 2 + 1 < calcTreeWidth n height then encodeSubtree height (pos * 2 + 1)
        else ([], [])
      (true :: l.1 ++ r.1, l.2 ++ r.2)

/-- `TraverseAndBuild` appends `encodeSubtree` to whatever the tree holds. -/
theorem traverseAndBuild_eq : ∀ h pos (T : CPartialMerkleTree α),
    traverseAndBuild H vTxid vMatch h pos T =
      { T with vBits := T.vBits ++ (encodeSubtree H T.nTransactions.toNat vTxid vMatch h pos).1,
               vHash := T.vHash ++ (encodeSubtree H T.nTransactions.toNat vTxid vMatch h pos).2 }
  | 0, pos, T => rfl
  | h + 1, pos, T => by
    simp only [traverseAndBuild, encodeSubtree]
    cases hf : parentOfMatch T.nTransactions.toNat vMatch (h + 1) pos
    · simp
    · simp only [Bool.not_true, Bool.false_eq_true, if_false]
      rw [traverseAndBuild_eq h (pos * 2)]
      split
      · rw [traverseAndBuild_eq h (pos * 2 + 1)]
        simp
      · simp

theorem length_hashes_le_bits :
    ∀ h pos, (encodeSubtree H n vTxid vMatch h pos).2.length ≤ (encodeSubtree H n vTxid vMatch h pos).1.length
  | 0, pos => by simp [encodeSubtree]
  | h + 1, pos => by
    have hl := length_hashes_le_bits h (pos * 2)
    have hr := length_hashes_le_bits h (pos * 2 + 1)
    simp only [encodeSubtree]
    split
    · simp
    · split <;> simp <;> omega

/-- At most one hash per leaf below the node. -/
theorem length_hashes_le :
    ∀ h pos, pos < calcTreeWidth n h →
      (encodeSubtree H n vTxid vMatch h pos).2.length ≤ min (2 ^ h) (n - pos * 2 ^ h)
  | 0, pos, hpos => by
    rw [calcTreeWidth_zero] at hpos
    simp [encodeSubtree]
    omega
  | h + 1, pos, hpos => by
    have hw := calcTreeWidth_succ n h
    have hlt := (lt_calcTreeWidth_iff).mp hpos
    have hone : 1 ≤ 2 ^ (h + 1) := Nat.one_le_two_pow
    have e1 : pos * 2 ^ (h + 1) = pos * 2 * 2 ^ h := by ring
    have e2 : (pos * 2 + 1) * 2 ^ h = pos * 2 * 2 ^ h + 2 ^ h := by ring
    have e3 : 2 ^ (h + 1) = 2 ^ h + 2 ^ h := by ring
    have hl := length_hashes_le h (pos * 2) (by omega)
    simp only [encodeSubtree]
    split
    · simp only [List.length_singleton]
      omega
    · split
      · next hright =>
        have hr := length_hashes_le h (pos * 2 + 1) hright
        simp only [List.length_append]
        omega
      · simp only [List.length_append, List.length_nil]
        omega

/-- A subtree of `height` has fewer than `2^(height+1)` nodes. -/
theorem length_bits_lt :
    ∀ h pos, (encodeSubtree H n vTxid vMatch h pos).1.length < 2 ^ (h + 1)
  | 0, pos => by simp [encodeSubtree]
  | h + 1, pos => by
    have hl := length_bits_lt h (pos * 2)
    have hr := length_bits_lt h (pos * 2 + 1)
    have e : 2 ^ (h + 1 + 1) = 2 ^ (h + 1) + 2 ^ (h + 1) := by ring
    have hone : 1 ≤ 2 ^ (h + 1) := Nat.one_le_two_pow
    simp only [encodeSubtree]
    split
    · simp only [List.length_singleton]
      omega
    · split <;> simp <;> omega

end Build

/-! ## The height of the tree -/

section Height

variable {n : Nat}

/-- The height loop stops on a width of at most one once it has the fuel to reach one. -/
theorem calcTreeWidth_treeHeightLoop_le : ∀ fuel k, calcTreeWidth n (k + fuel) ≤ 1 →
    calcTreeWidth n (treeHeightLoop n fuel k) ≤ 1
  | 0, k, hw => hw
  | fuel + 1, k, hw => by
    rw [treeHeightLoop]
    split
    · exact calcTreeWidth_treeHeightLoop_le fuel (k + 1) (by rwa [Nat.add_right_comm])
    · omega

/-- It stops at the first such height. -/
theorem treeHeightLoop_le : ∀ fuel k k', k ≤ k' → calcTreeWidth n k' ≤ 1 → treeHeightLoop n fuel k ≤ k'
  | 0, k, _, hk, _ => hk
  | fuel + 1, k, k', hk, hw => by
    rw [treeHeightLoop]
    split
    · next hgt =>
      have hne : k ≠ k' := fun h => by rw [h] at hgt; omega
      exact treeHeightLoop_le fuel (k + 1) k' (by omega) hw
    · exact hk

theorem calcTreeWidth_treeHeight (n : Nat) : calcTreeWidth n (treeHeight n) ≤ 1 :=
  calcTreeWidth_treeHeightLoop_le n 0 (by rw [Nat.zero_add]; exact calcTreeWidth_self n)

theorem treeHeight_le {k : Nat} (hw : calcTreeWidth n k ≤ 1) : treeHeight n ≤ k :=
  treeHeightLoop_le n 0 k (Nat.zero_le k) hw

variable {α : Type} (H : α → α → α)

theorem merkleDepth_le_length (l : List α) : merkleDepth H l ≤ l.length := by
  induction hm : l.length using Nat.strong_induction_on generalizing l with
  | _ m ih =>
    by_cases hlt : 1 < l.length
    · have hlen := length_merkleNext H l
      have := ih _ (by omega) (merkleNext H l) rfl
      rw [merkleDepth_of_lt hlt]
      omega
    · rw [merkleDepth_of_le (by omega)]
      omega

/-- The height loop counts the levels of `ComputeMerkleRoot` above level `k`. -/
theorem treeHeightLoop_eq : ∀ fuel k (l : List α), l.length = calcTreeWidth n k →
    merkleDepth H l ≤ fuel → treeHeightLoop n fuel k = k + merkleDepth H l
  | 0, k, l, _, hd => by
    rw [treeHeightLoop]
    omega
  | fuel + 1, k, l, hl, hd => by
    rw [treeHeightLoop]
    split
    · next hgt =>
      have hlt : 1 < l.length := by omega
      have hnext : (merkleNext H l).length = calcTreeWidth n (k + 1) := by
        rw [length_merkleNext, hl, calcTreeWidth_succ]
      rw [merkleDepth_of_lt hlt] at hd ⊢
      rw [treeHeightLoop_eq fuel (k + 1) (merkleNext H l) hnext (by omega)]
      omega
    · next hle =>
      rw [merkleDepth_of_le (by omega)]
      omega

theorem treeHeight_eq_merkleDepth {vTxid : List α} (hn : vTxid.length = n) :
    treeHeight n = merkleDepth H vTxid := by
  have hd := merkleDepth_le_length H vTxid
  rw [treeHeight, treeHeightLoop_eq H n 0 vTxid (by rw [calcTreeWidth_zero, hn]) (by omega),
    Nat.zero_add]

/-- The root node is the root of `ComputeMerkleRoot`. -/
theorem calcHash_treeHeight [Zero α] [DecidableEq α] {vTxid : List α} (hn : vTxid.length = n) (hpos : 0 < n) :
    calcHash H n vTxid (treeHeight n) 0 = merkleRoot H vTxid := by
  obtain ⟨hroot, hdepth, -⟩ := merkleNext_iterate (H := H) (merkleDepth H vTxid) vTxid le_rfl
  have hle : ((merkleNext H)^[merkleDepth H vTxid] vTxid).length ≤ 1 := by
    rw [Nat.sub_self] at hdepth
    exact Nat.le_of_not_lt (mt (merkleDepth_pos_iff (H := H)).mpr (by omega))
  rw [calcHash_eq H hn _ 0 (calcTreeWidth_pos hpos _), treeHeight_eq_merkleDepth H hn, ← hroot,
    merkleRoot_of_le hle]
  cases (merkleNext H)^[merkleDepth H vTxid] vTxid <;> rfl

end Height


/-! ## What the extractor reads -/

section Extract

variable {α : Type} [Zero α]

/-- The state after reading a subtree of `b` bits and `k` hashes whose matches are at `idx`. -/
def ExtractState.consume (st : ExtractState α) (vTxid : List α) (b k : Nat) (idx : List Nat) :
    ExtractState α :=
  { st with nBitsUsed := st.nBitsUsed + b, nHashUsed := st.nHashUsed + k,
            vMatch := st.vMatch ++ idx.map (vTxid.getD · 0), vnIndex := st.vnIndex ++ idx }

@[simp] theorem ExtractState.consume_consume (st : ExtractState α) (vTxid : List α)
    (b k b' k' : Nat) (idx idx' : List Nat) :
    (st.consume vTxid b k idx).consume vTxid b' k' idx' =
      st.consume vTxid (b + b') (k + k') (idx ++ idx') := by
  simp [ExtractState.consume, Nat.add_assoc]

theorem ExtractState.consume_bit (st : ExtractState α) (vTxid : List α) (k : Nat) (idx : List Nat) :
    ({ st with nBitsUsed := st.nBitsUsed + 1 } : ExtractState α).consume vTxid 0 k idx =
      st.consume vTxid 1 k idx := rfl

/-- Reading a stream at the length of what went before gives the next element. -/
theorem get_eq_of_eq_append {β : Type} {l pre rest : List β} {b : β} (hl : l = pre ++ b :: rest)
    {i : Nat} (hi : i = pre.length) (h : i < l.length) : l.get ⟨i, h⟩ = b := by
  subst hl hi
  simp

/-- The stored hash branch, on a hash stream holding `hash` next. -/
theorem extractHash_eq {T : CPartialMerkleTree α} (st : ExtractState α) {preH postH : List α}
    {hash : α} (hv : T.vHash = preH ++ hash :: postH) (hi : st.nHashUsed = preH.length)
    {height pos : Nat} {f : Bool} (vTxid : List α)
    (hhash : height = 0 ∧ f = true → hash = vTxid.getD pos 0) :
    extractHash T height pos f st =
      (hash, st.consume vTxid 0 1 (if height = 0 ∧ f = true then [pos] else [])) := by
  have hlt : st.nHashUsed < T.vHash.length := by rw [hv, hi]; simp
  rw [extractHash, dif_pos hlt, get_eq_of_eq_append hv hi hlt]
  split
  · next hc => simp [ExtractState.consume, hhash hc]
  · next hc => simp [ExtractState.consume]

/-- The first bit of a subtree is its `fParentOfMatch`. -/
theorem encodeSubtree_fst (H : α → α → α) (n : Nat) (vTxid : List α) (vMatch : List Bool) :
    ∀ h pos, ∃ rest, (encodeSubtree H n vTxid vMatch h pos).1 = parentOfMatch n vMatch h pos :: rest
  | 0, pos => ⟨[], rfl⟩
  | h + 1, pos => by
    cases hf : parentOfMatch n vMatch (h + 1) pos
    · exact ⟨[], by simp [encodeSubtree, hf]⟩
    · exact ⟨(encodeSubtree H n vTxid vMatch h (pos * 2)).1 ++
        (if pos * 2 + 1 < calcTreeWidth n h then encodeSubtree H n vTxid vMatch h (pos * 2 + 1)
          else ([], [])).1, by simp [encodeSubtree, hf]⟩

variable [DecidableEq α] {H : α → α → α} {n : Nat} {vTxid : List α} {vMatch : List Bool}
  {T : CPartialMerkleTree α}

/-- `TraverseAndExtract` reads back what `TraverseAndBuild` wrote for the same node, from any
position of the two streams: it consumes exactly those bits and hashes, returns the node's
hash, and records the matches below it in order. -/
theorem traverseAndExtract_encodeSubtree (hH : ∀ a b c d, H a b = H c d → a = c)
    (hn : vTxid.length = n) (hnd : vTxid.Nodup) (hT : T.nTransactions.toNat = n) :
    ∀ h pos, pos < calcTreeWidth n h → ∀ (st : ExtractState α) (preB postB : List Bool)
      (preH postH : List α),
      T.vBits = preB ++ (encodeSubtree H n vTxid vMatch h pos).1 ++ postB →
      st.nBitsUsed = preB.length →
      T.vHash = preH ++ (encodeSubtree H n vTxid vMatch h pos).2 ++ postH →
      st.nHashUsed = preH.length →
      traverseAndExtract H T h pos st =
        (calcHash H n vTxid h pos,
          st.consume vTxid (encodeSubtree H n vTxid vMatch h pos).1.length
            (encodeSubtree H n vTxid vMatch h pos).2.length (matchedIn n vMatch h pos))
  | 0, pos, hpos, st, preB, postB, preH, postH, hb, hib, hv, hiv => by
    -- a leaf: one bit, one hash, and a match when the bit is set
    simp only [encodeSubtree, List.append_assoc, List.singleton_append] at hb hv
    have hlt : st.nBitsUsed < T.vBits.length := by rw [hb, hib]; simp
    rw [traverseAndExtract, dif_pos hlt, get_eq_of_eq_append hb hib hlt,
      extractHash_eq { st with nBitsUsed := st.nBitsUsed + 1 } hv hiv vTxid (fun _ => rfl),
      ExtractState.consume_bit, matchedIn_zero]
    simp [encodeSubtree]
  | h + 1, pos, hpos, st, preB, postB, preH, postH, hb, hib, hv, hiv => by
    have hw := calcTreeWidth_succ n h
    obtain ⟨rest, hrest⟩ := encodeSubtree_fst H n vTxid vMatch (h + 1) pos
    have hb' : T.vBits = preB ++ parentOfMatch n vMatch (h + 1) pos :: (rest ++ postB) := by
      rw [hb, hrest]; simp
    have hlt : st.nBitsUsed < T.vBits.length := by rw [hb', hib]; simp
    rw [traverseAndExtract, dif_pos hlt]
    simp only [get_eq_of_eq_append hb' hib hlt]
    cases hf : parentOfMatch n vMatch (h + 1) pos
    · -- nothing matched below: the node's own hash
      have henc : encodeSubtree H n vTxid vMatch (h + 1) pos =
          ([false], [calcHash H n vTxid (h + 1) pos]) := by simp [encodeSubtree, hf]
      rw [henc] at hv ⊢
      simp only [List.append_assoc, List.singleton_append] at hv
      rw [Bool.not_false, if_pos rfl, extractHash_eq { st with nBitsUsed := st.nBitsUsed + 1 } hv hiv
        vTxid (fun h => absurd h.1 (by omega)), ExtractState.consume_bit,
        (parentOfMatch_eq_false_iff).mp hf]
      simp
    · -- descend: the left subtree, then the right one where it exists
      have hl := (lt_calcTreeWidth_iff).mp hpos
      simp only [Bool.not_true, Bool.false_eq_true, if_false]
      by_cases hright : pos * 2 + 1 < calcTreeWidth n h
      · have henc : encodeSubtree H n vTxid vMatch (h + 1) pos =
            (true :: (encodeSubtree H n vTxid vMatch h (pos * 2)).1 ++
              (encodeSubtree H n vTxid vMatch h (pos * 2 + 1)).1,
             (encodeSubtree H n vTxid vMatch h (pos * 2)).2 ++
              (encodeSubtree H n vTxid vMatch h (pos * 2 + 1)).2) := by
          simp [encodeSubtree, hf, hright]
        rw [henc] at hb hv
        have hL := traverseAndExtract_encodeSubtree hH hn hnd hT h (pos * 2) (by omega)
          { st with nBitsUsed := st.nBitsUsed + 1 } (preB ++ [true])
          ((encodeSubtree H n vTxid vMatch h (pos * 2 + 1)).1 ++ postB) preH
          ((encodeSubtree H n vTxid vMatch h (pos * 2 + 1)).2 ++ postH)
          (by rw [hb]; simp) (by simp [hib]) (by rw [hv]; simp) hiv
        rw [hL, hT, if_pos hright]
        have hR := traverseAndExtract_encodeSubtree hH hn hnd hT h (pos * 2 + 1) hright
          (({ st with nBitsUsed := st.nBitsUsed + 1 } : ExtractState α).consume vTxid
            (encodeSubtree H n vTxid vMatch h (pos * 2)).1.length
            (encodeSubtree H n vTxid vMatch h (pos * 2)).2.length (matchedIn n vMatch h (pos * 2)))
          (preB ++ [true] ++ (encodeSubtree H n vTxid vMatch h (pos * 2)).1) postB
          (preH ++ (encodeSubtree H n vTxid vMatch h (pos * 2)).2) postH
          (by rw [hb]; simp) (by simp [ExtractState.consume, hib]; omega)
          (by rw [hv]; simp) (by simp [ExtractState.consume, hiv])
        -- distinct txids below the two children: the forgery test does not fire
        have hne : calcHash H n vTxid h (pos * 2 + 1) ≠ calcHash H n vTxid h (pos * 2) := by
          intro heq
          have := calcHash_injective H hn hH hnd h _ _ hright (by omega) heq
          omega
        rw [hR, if_neg hne, henc, matchedIn_succ]
        simp [calcHash, hright, ExtractState.consume, Nat.add_assoc]
        omega
      · have henc : encodeSubtree H n vTxid vMatch (h + 1) pos =
            (true :: (encodeSubtree H n vTxid vMatch h (pos * 2)).1,
             (encodeSubtree H n vTxid vMatch h (pos * 2)).2) := by
          simp [encodeSubtree, hf, hright]
        rw [henc] at hb hv
        have hL := traverseAndExtract_encodeSubtree hH hn hnd hT h (pos * 2) (by omega)
          { st with nBitsUsed := st.nBitsUsed + 1 } (preB ++ [true]) postB preH postH
          (by rw [hb]; simp) (by simp [hib]) (by rw [hv]) hiv
        have hnil : matchedIn n vMatch h (pos * 2 + 1) = [] := matchedIn_eq_nil (by omega)
        rw [hL, hT, if_neg hright, henc, matchedIn_succ, hnil]
        simp [calcHash, hright, ExtractState.consume, Nat.add_assoc]
        omega

end Extract


/-! ## The bits on the wire -/

section Packing

/-- Modifying entry `i` of a list and reading entry `j` within its length. -/
theorem getD_modify {β : Type} (f : β → β) (l : List β) (i j : Nat) (hj : j < l.length) (d : β) :
    (l.modify i f).getD j d = if i = j then f (l.getD j d) else l.getD j d := by
  rw [List.getD_eq_getElem _ _ (by rwa [List.length_modify]), List.getElem_modify,
    List.getD_eq_getElem _ _ hj]

/-- Bit `i` of `vBits[p] << k`. -/
theorem testBit_bitAt (b : Bool) {k : Nat} (hk : k < 8) (i : Nat) :
    ((if b then (1 : UInt8) else 0) <<< k.toUInt8).toNat.testBit i = (decide (k = i) && b) := by
  have hk8 : k.toUInt8.toNat = k := by simp; omega
  cases b
  · simp
  · have hpow : 2 ^ k < 2 ^ 8 := Nat.pow_lt_pow_right (by omega) hk
    simp only [if_true, UInt8.toNat_shiftLeft, hk8, Nat.mod_eq_of_lt hk, UInt8.toNat_one,
      Nat.one_shiftLeft, Nat.mod_eq_of_lt hpow, Nat.testBit_two_pow, Bool.and_true]

/-- `(vBytes[p / 8] & (1 << (p % 8))) != 0` reads bit `p % 8` of byte `p / 8`. -/
theorem and_bit_ne_zero (x : UInt8) {k : Nat} (hk : k < 8) :
    (x &&& (1 <<< k.toUInt8) != 0) = x.toNat.testBit k := by
  have hk8 : k.toUInt8.toNat = k := by simp; omega
  have hpow : 2 ^ k < 2 ^ 8 := Nat.pow_lt_pow_right (by omega) hk
  have hand : (x &&& (1 <<< k.toUInt8)).toNat = (x.toNat.testBit k).toNat * 2 ^ k := by
    rw [UInt8.toNat_and, UInt8.toNat_shiftLeft, hk8, Nat.mod_eq_of_lt hk, UInt8.toNat_one,
      Nat.one_shiftLeft, Nat.mod_eq_of_lt hpow, Nat.and_two_pow]
  cases htb : x.toNat.testBit k
  · rw [htb, Bool.toNat_false, Nat.zero_mul] at hand
    simp [← UInt8.toNat_inj, hand]
  · rw [htb, Bool.toNat_true, Nat.one_mul] at hand
    have : (x &&& (1 <<< k.toUInt8)) ≠ 0 := by
      intro h0
      rw [h0, UInt8.toNat_zero] at hand
      exact absurd hand (Nat.two_pow_pos k).ne
    simp [this]

/-- One pass of the packing loop. -/
def packStep (vBits : List Bool) (vBytes : List UInt8) (p : Nat) : List UInt8 :=
  vBytes.modify (p / 8) (· ||| (if vBits.getD p false then 1 else 0) <<< (p % 8).toUInt8)

theorem packBits_eq (vBits : List Bool) :
    packBits vBits = (List.range vBits.length).foldl (packStep vBits)
      (List.replicate ((vBits.length + 7) / 8) 0) := rfl

theorem length_packLoop (vBits : List Bool) (init : List UInt8) :
    ∀ m, ((List.range m).foldl (packStep vBits) init).length = init.length
  | 0 => rfl
  | m + 1 => by
    rw [List.range_succ, List.foldl_append, List.foldl_cons, List.foldl_nil, packStep,
      List.length_modify, length_packLoop vBits init m]

@[simp] theorem length_packBits (vBits : List Bool) :
    (packBits vBits).length = (vBits.length + 7) / 8 := by
  rw [packBits_eq, length_packLoop, List.length_replicate]

/-- After the first `m` passes, bit `i` of byte `j` is bit `8j+i` of `vBits` if that is
below `m`, and clear otherwise. -/
theorem testBit_packLoop (vBits : List Bool) :
    ∀ m, m ≤ vBits.length → ∀ j i, i < 8 →
      (((List.range m).foldl (packStep vBits) (List.replicate ((vBits.length + 7) / 8) 0)).getD j 0).toNat.testBit i =
        (decide (8 * j + i < m) && vBits.getD (8 * j + i) false)
  | 0, _, j, i, _ => by simp
  | m + 1, hm, j, i, hi => by
    have ih := testBit_packLoop vBits m (by omega)
    have hlen := length_packLoop vBits (List.replicate ((vBits.length + 7) / 8) 0) m
    rw [List.length_replicate] at hlen
    rw [List.range_succ, List.foldl_append, List.foldl_cons, List.foldl_nil, packStep]
    by_cases hj : j < (vBits.length + 7) / 8
    · rw [getD_modify _ _ _ _ (by omega)]
      split
      · next hjm =>
        -- the byte the pass writes: its old bits, and bit `m % 8` from `vBits[m]`
        rw [UInt8.toNat_or, Nat.testBit_or, ih j i hi, testBit_bitAt _ (Nat.mod_lt _ (by omega))]
        by_cases him : m % 8 = i
        · have he : 8 * j + i = m := by omega
          simp [him, he]
        · have hne : 8 * j + i ≠ m := by omega
          simp only [him, decide_false, Bool.false_and, Bool.or_false]
          congr 1
          simp only [decide_eq_decide]
          omega
      · next hjm =>
        rw [ih j i hi]
        have hne : 8 * j + i ≠ m := by omega
        congr 1
        simp only [decide_eq_decide]
        omega
    · -- past the last byte: nothing is stored, and no bit of `vBits` lands there
      rw [List.getD_eq_default _ _ (by rw [List.length_modify]; omega)]
      simp only [UInt8.toNat_zero, Nat.zero_testBit]
      simp only [show ¬ 8 * j + i < m + 1 by omega, decide_false, Bool.false_and]

/-- Reading the packed bytes back gives the bits and then the zero padding of the last
byte. -/
theorem unpackBits_packBits (vBits : List Bool) :
    unpackBits (packBits vBits) =
      vBits ++ List.replicate ((vBits.length + 7) / 8 * 8 - vBits.length) false := by
  apply List.ext_getElem
  · simp [unpackBits]
    omega
  · intro p hp _
    simp only [unpackBits, length_packBits, List.getElem_map,
      List.getElem_range] at hp ⊢
    rw [and_bit_ne_zero _ (Nat.mod_lt _ (by omega)), packBits_eq,
      testBit_packLoop vBits vBits.length le_rfl _ _ (Nat.mod_lt _ (by omega)),
      show 8 * (p / 8) + p % 8 = p by omega]
    by_cases hlt : p < vBits.length
    · rw [List.getElem_append_left hlt, List.getD_eq_getElem _ _ hlt]
      simp [hlt]
    · rw [List.getElem_append_right (by omega), List.getElem_replicate]
      simp [hlt]

/-- A tree written and read back: the same transactions and hashes, the bits padded to
whole bytes, and `fBad` cleared. -/
theorem unserializePartialMerkleTree_serializePartialMerkleTree
    (T : CPartialMerkleTree (Vector UInt8 32)) (hh : T.vHash.length ≤ MAX_SIZE.toNat)
    (hb : (T.vBits.length + 7) / 8 ≤ MAX_SIZE.toNat) (rest : List UInt8) :
    unserializePartialMerkleTree (serializePartialMerkleTree T ++ rest) =
      .ok (⟨T.nTransactions,
        T.vBits ++ List.replicate ((T.vBits.length + 7) / 8 * 8 - T.vBits.length) false,
        T.vHash, false⟩, rest) := by
  rw [unserializePartialMerkleTree, serializePartialMerkleTree, List.append_assoc,
    List.append_assoc, (serReaddata32_eq_ok).mpr rfl, Except.ok_bind]
  dsimp only
  rw [unserializeVector_serializeVector (f := id) T.vHash
      (fun x _ rest => unserializeUint256_serializeUint256 x rest) _ hh, Except.ok_bind]
  dsimp only
  rw [unserializeBytes_serializeBytes _ _ (by rwa [length_packBits]), Except.ok_bind,
    unpackBits_packBits, List.map_id]
  rfl

end Packing


/-! ## `ExtractMatches` on a built tree -/

section Root

variable {α : Type} [Zero α] (H : α → α → α)

/-- The constructor writes the encoding of the whole tree. -/
theorem partialMerkleTree_eq (vTxid : List α) (vMatch : List Bool) (h32 : vTxid.length < 2 ^ 32) :
    partialMerkleTree H vTxid vMatch =
      ⟨vTxid.length.toUInt32,
        (encodeSubtree H vTxid.length vTxid vMatch (treeHeight vTxid.length) 0).1,
        (encodeSubtree H vTxid.length vTxid vMatch (treeHeight vTxid.length) 0).2, false⟩ := by
  have hn : vTxid.length.toUInt32.toNat = vTxid.length := by simp; omega
  rw [partialMerkleTree]
  dsimp only
  rw [traverseAndBuild_eq]
  simp [hn]

/-- The counters of `TraverseAndExtract` never pass the ends of `vBits` and `vHash`, whatever
the tree: every read is behind a bounds test and moves its counter by one. -/
theorem extractHash_le (T : CPartialMerkleTree α) (height pos : Nat) (f : Bool) (st : ExtractState α)
    (hb : st.nBitsUsed ≤ T.vBits.length) (hh : st.nHashUsed ≤ T.vHash.length) :
    (extractHash T height pos f st).2.nBitsUsed ≤ T.vBits.length ∧
      (extractHash T height pos f st).2.nHashUsed ≤ T.vHash.length := by
  unfold extractHash
  split
  · next hlt =>
    dsimp only
    split
    · exact ⟨hb, hlt⟩
    · exact ⟨hb, hlt⟩
  · exact ⟨hb, hh⟩

variable [DecidableEq α]

theorem traverseAndExtract_le (T : CPartialMerkleTree α) : ∀ h pos (st : ExtractState α),
    st.nBitsUsed ≤ T.vBits.length → st.nHashUsed ≤ T.vHash.length →
      (traverseAndExtract H T h pos st).2.nBitsUsed ≤ T.vBits.length ∧
        (traverseAndExtract H T h pos st).2.nHashUsed ≤ T.vHash.length
  | 0, pos, st, hb, hh => by
    rw [traverseAndExtract]
    split
    · next hlt => exact extractHash_le T 0 pos _ _ hlt hh
    · exact ⟨hb, hh⟩
  | h + 1, pos, st, hb, hh => by
    rw [traverseAndExtract]
    split
    · next hlt =>
      dsimp only
      split
      · exact extractHash_le T (h + 1) pos _ _ hlt hh
      · obtain ⟨hl1, hl2⟩ := traverseAndExtract_le T h (pos * 2)
          { st with nBitsUsed := st.nBitsUsed + 1 } hlt hh
        split
        · obtain ⟨hr1, hr2⟩ := traverseAndExtract_le T h (pos * 2 + 1)
            (traverseAndExtract H T h (pos * 2) { st with nBitsUsed := st.nBitsUsed + 1 }).2 hl1 hl2
          split
          · exact ⟨hr1, hr2⟩
          · exact ⟨hr1, hr2⟩
        · exact ⟨hl1, hl2⟩
    · exact ⟨hb, hh⟩

variable {H} {n : Nat} {vTxid : List α} {vMatch : List Bool}

/-- `ExtractMatches` on the encoding of a tree of distinct txids, followed by any bits that
stay within its last byte: every check passes, and it returns the root of
`ComputeMerkleRoot` with the matched txids and their positions in order. -/
theorem extractMatches_of_encodeSubtree (hH : ∀ a b c d, H a b = H c d → a = c)
    (hn : vTxid.length = n) (hnd : vTxid.Nodup) (hpos : 0 < n)
    (hmax : n ≤ MAX_BLOCK_WEIGHT / MIN_TRANSACTION_WEIGHT) {T : CPartialMerkleTree α}
    (hT : T.nTransactions.toNat = n) {pad : List Bool}
    (hbits : T.vBits = (encodeSubtree H n vTxid vMatch (treeHeight n) 0).1 ++ pad)
    (hpad : ((encodeSubtree H n vTxid vMatch (treeHeight n) 0).1.length + 7) / 8 =
      (T.vBits.length + 7) / 8)
    (hhash : T.vHash = (encodeSubtree H n vTxid vMatch (treeHeight n) 0).2) (hbad : T.fBad = false)
    (vnIndex : List Nat) :
    (T.extractMatches H vnIndex).1 =
      (merkleRoot H vTxid, ((List.range n).filter fun p => vMatch.getD p false).map (vTxid.getD · 0),
        vnIndex ++ (List.range n).filter fun p => vMatch.getD p false) := by
  have hw0 : 0 < calcTreeWidth n (treeHeight n) := calcTreeWidth_pos hpos _
  have hhl := length_hashes_le H n vTxid vMatch (treeHeight n) 0 hw0
  have hbl := length_hashes_le_bits H n vTxid vMatch (treeHeight n) 0
  have hx := traverseAndExtract_encodeSubtree hH hn hnd hT (treeHeight n) 0 hw0
    ⟨0, 0, [], vnIndex, T.fBad⟩ [] pad [] [] (by rw [hbits, List.nil_append]) rfl
    (by rw [hhash, List.nil_append, List.append_nil]) rfl
  have hlen : T.vHash.length ≤ T.vBits.length := by
    rw [hbits, hhash, List.length_append]
    omega
  rw [CPartialMerkleTree.extractMatches]
  simp only [hT]
  rw [if_neg (by omega), if_neg (by omega), if_neg (by rw [hhash]; omega), if_neg (by omega), hx]
  simp [ExtractState.consume, hbad, hpad, hhash, calcHash_treeHeight H hn hpos,
    matchedIn_root (calcTreeWidth_treeHeight n)]

end Root

/-! ## Partial merkle trees are complete and exact -/

section Main

theorem max_block_weight_div : MAX_BLOCK_WEIGHT / MIN_TRANSACTION_WEIGHT = 16666 := rfl

/-- A tree of at most `16666` leaves has height at most 15. -/
theorem treeHeight_le_fifteen {n : Nat} (hn : n ≤ 16666) : treeHeight n ≤ 15 :=
  treeHeight_le ((calcTreeWidth_le_one_iff).mpr (by omega))

/-- For distinct txids of a block that fits `MAX_BLOCK_WEIGHT`, and a pair hash whose value
determines its left input: `ExtractMatches` on `CPartialMerkleTree(vTxid, vMatch)`, sent or
not through its serialization, returns `ComputeMerkleRoot(vTxid)` with the matched txids and
positions in increasing order; and on every tree the traversal's counters stay within
`vBits` and `vHash`. -/
theorem partialMerkleTree_extractMatches
    (H : Vector UInt8 32 → Vector UInt8 32 → Vector UInt8 32)
    (hH : ∀ a b c d, H a b = H c d → a = c) (vTxid : List (Vector UInt8 32)) (vMatch : List Bool)
    (hpos : 1 ≤ vTxid.length) (hmax : vTxid.length ≤ MAX_BLOCK_WEIGHT / MIN_TRANSACTION_WEIGHT)
    (hnd : vTxid.Nodup) (vnIndex : List Nat) :
    let T := partialMerkleTree H vTxid vMatch
    let matched := (List.range vTxid.length).filter fun i => vMatch.getD i false
    let expected := ((computeMerkleRoot H vTxid).1, matched.map (vTxid.getD · 0), vnIndex ++ matched)
    (T.extractMatches H vnIndex).1 = expected ∧
    (∀ rest, ∃ T', unserializePartialMerkleTree (serializePartialMerkleTree T ++ rest) = .ok (T', rest) ∧
      (T'.extractMatches H vnIndex).1 = expected) ∧
    ∀ (T : CPartialMerkleTree (Vector UInt8 32)) h pos st,
      st.nBitsUsed ≤ T.vBits.length → st.nHashUsed ≤ T.vHash.length →
        (traverseAndExtract H T h pos st).2.nBitsUsed ≤ T.vBits.length ∧
          (traverseAndExtract H T h pos st).2.nHashUsed ≤ T.vHash.length := by
  dsimp only
  rw [max_block_weight_div] at hmax
  have hT := partialMerkleTree_eq H vTxid vMatch (by omega)
  have hn32 : vTxid.length.toUInt32.toNat = vTxid.length := by simp; omega
  have hroot : (computeMerkleRoot H vTxid).1 = merkleRoot H vTxid := by rw [computeMerkleRoot_eq]
  have hmax' : vTxid.length ≤ MAX_BLOCK_WEIGHT / MIN_TRANSACTION_WEIGHT := by
    rw [max_block_weight_div]; exact hmax
  refine ⟨?_, ?_, traverseAndExtract_le H⟩
  · rw [hT, hroot]
    exact extractMatches_of_encodeSubtree hH rfl hnd (by omega) hmax' hn32
      (List.append_nil _).symm rfl rfl rfl vnIndex
  · intro rest
    -- what goes on the wire fits `MAX_SIZE`: at most one hash per txid, fewer than `2^16` bits
    have hhl := length_hashes_le H vTxid.length vTxid vMatch (treeHeight vTxid.length) 0
      (calcTreeWidth_pos (by omega) _)
    have hbl := length_bits_lt H vTxid.length vTxid vMatch (treeHeight vTxid.length) 0
    have hpow : 2 ^ (treeHeight vTxid.length + 1) ≤ 2 ^ 16 :=
      Nat.pow_le_pow_right (by omega) (by have := treeHeight_le_fifteen hmax; omega)
    have hsize : MAX_SIZE.toNat = 33554432 := rfl
    rw [hT]
    have hwire := unserializePartialMerkleTree_serializePartialMerkleTree
      ⟨vTxid.length.toUInt32, (encodeSubtree H vTxid.length vTxid vMatch (treeHeight vTxid.length) 0).1,
        (encodeSubtree H vTxid.length vTxid vMatch (treeHeight vTxid.length) 0).2, false⟩
      (by rw [hsize]; dsimp only; omega) (by rw [hsize]; dsimp only; omega) rest
    refine ⟨_, hwire, ?_⟩
    rw [hroot]
    exact extractMatches_of_encodeSubtree hH rfl hnd (by omega) hmax' hn32 rfl (by simp; omega)
      rfl rfl vnIndex

/-- Three txids, the first and the last matched, with the pair hash that keeps its left
input. -/
theorem partialMerkleTree_extractMatches_three :
    let H : Vector UInt8 32 → Vector UInt8 32 → Vector UInt8 32 := fun a _ => a
    let vTxid := [Vector.replicate 32 1, Vector.replicate 32 2, Vector.replicate 32 3]
    ((partialMerkleTree H vTxid [true, false, true]).extractMatches H []).1 =
      (Vector.replicate 32 1, [Vector.replicate 32 1, Vector.replicate 32 3], [0, 2]) := by
  intro H vTxid
  have h := (partialMerkleTree_extractMatches H (fun _ _ _ _ h => h) vTxid [true, false, true]
    (by decide) (by decide) (by decide) []).1
  rw [h]
  decide

end Main

end Veles
