import Mathlib
import Veles.Script.Script

/-!
# The interpreter's checks on pushes, signatures and `FindAndDelete`

From script/interpreter.cpp: `CheckMinimalPush`, which wants the shortest push for its data;
`IsValidSignatureEncoding`, the strict-DER test of BIP66, with every `sig[i]` read through
`sig[i]?`; and `FindAndDelete`, which walks the script by `GetOp`, skips the copies of `b` found
at each position it stops at, and copies the other bytes out.

    checkMinimalPush b (shortestPushOpcode b.length) = .ok true ↔ b is no small number
                                                            (checkMinimalPush_shortest)
    isValidSignatureEncoding sig ≠ none                      (isValidSignatureEncoding_ne_none)
    isValidSignatureEncoding sig = some true ↔ sig = derSignature R S h, in size, with R and S
      strict-DER integers                                     (isValidSignatureEncoding_iff)
    findAndDelete script b = some (scanDelete script b 0)     (findAndDelete_eq_scanDelete)
-/

namespace Veles

/-! ## Algorithm -/

/-- `CheckMinimalPush(data, opcode)`, which first asserts that `opcode` is a push. -/
def checkMinimalPush (data : List UInt8) (opcode : UInt8) : Except String Bool :=
  if ¬opcode ≤ OP_PUSHDATA4 then .error "assert(0 <= opcode && opcode <= OP_PUSHDATA4)"
  else if data.length = 0 then .ok (opcode == OP_0)
  else if data.length = 1 ∧ 1 ≤ data.getD 0 0 ∧ data.getD 0 0 ≤ 16 then .ok false
  else if data.length = 1 ∧ data.getD 0 0 = 0x81 then .ok false
  else if data.length ≤ 75 then .ok (opcode.toNat == data.length)
  else if data.length ≤ 255 then .ok (opcode == OP_PUSHDATA1)
  else if data.length ≤ 65535 then .ok (opcode == OP_PUSHDATA2)
  else .ok true

/-- `IsValidSignatureEncoding(sig)`. -/
def isValidSignatureEncoding (sig : List UInt8) : Option Bool := do
  if sig.length < 9 then return false
  if sig.length > 73 then return false
  if (← sig[0]?) ≠ 0x30 then return false
  if (← sig[1]?).toNat ≠ sig.length - 3 then return false
  let lenR := (← sig[3]?).toNat
  if 5 + lenR ≥ sig.length then return false
  let lenS := (← sig[5 + lenR]?).toNat
  if lenR + lenS + 7 ≠ sig.length then return false
  if (← sig[2]?) ≠ 0x02 then return false
  if lenR = 0 then return false
  if (← sig[4]?) &&& 0x80 ≠ 0 then return false
  if lenR > 1 then
    if (← sig[4]?) = 0x00 then
      if (← sig[5]?) &&& 0x80 = 0 then return false
  if (← sig[lenR + 4]?) ≠ 0x02 then return false
  if lenS = 0 then return false
  if (← sig[lenR + 6]?) &&& 0x80 ≠ 0 then return false
  if lenS > 1 then
    if (← sig[lenR + 6]?) = 0x00 then
      if (← sig[lenR + 7]?) &&& 0x80 = 0 then return false
  return true

theorem length_le_of_take_eq {l b : List UInt8} {pc : Nat} (h : (l.drop pc).take b.length = b) :
    b.length ≤ l.length - pc := by
  have := congrArg List.length h
  simp only [List.length_take, List.length_drop] at this
  omega

/-- The inner loop of `FindAndDelete`,
`while (static_cast<size_t>(end - pc) >= b.size() && std::equal(b.begin(), b.end(), pc))`:
the copies of `b` at `pc`, skipped and counted. -/
def skipCopies (script b : List UInt8) (hb : b ≠ []) (pc nFound : Nat) : Nat × Nat :=
  if h : b.length ≤ ((iterDiff script.length pc).toInt % 2 ^ 64).toNat ∧
      (script.drop pc).take b.length = b then
    skipCopies script b hb (pc + b.length) (nFound + 1)
  else (pc, nFound)
termination_by script.length - pc
decreasing_by
  have := length_le_of_take_eq h.2
  have := List.length_pos_iff.mpr hb
  omega

theorem le_skipCopies (script b : List UInt8) (hb : b ≠ []) (pc nFound : Nat) :
    pc ≤ (skipCopies script b hb pc nFound).1 ∧ nFound ≤ (skipCopies script b hb pc nFound).2 := by
  induction pc, nFound using skipCopies.induct script b hb with
  | case1 pc nFound h ih =>
    rw [skipCopies, dif_pos h]
    omega
  | case2 pc nFound h =>
    rw [skipCopies, dif_neg h]
    omega

/-- The `do { … } while (script.GetOp(pc, opcode))` loop of `FindAndDelete`, entered with
`result` and the positions `pc2 ≤ pc`; it leaves `result`, `pc2` and `nFound`. -/
def findAndDeleteLoop (script b : List UInt8) (hb : b ≠ []) (result : List UInt8)
    (pc pc2 nFound : Nat) : Option (List UInt8 × Nat × Nat) :=
  let result := result ++ (script.drop pc2).take (pc - pc2)
  match _h : getScriptOp script (skipCopies script b hb pc nFound).1 with
  | none => none
  | some r =>
    if _hok : r.ok then
      findAndDeleteLoop script b hb result r.pc (skipCopies script b hb pc nFound).1
        (skipCopies script b hb pc nFound).2
    else some (result, (skipCopies script b hb pc nFound).1, (skipCopies script b hb pc nFound).2)
termination_by script.length - pc
decreasing_by
  have := pc_lt_of_getScriptOp _h _hok
  have := (le_skipCopies script b hb pc nFound).1
  omega

/-- `FindAndDelete(script, b)`: the script it leaves and the count it returns. -/
def findAndDelete (script b : List UInt8) : Option (List UInt8 × Nat) :=
  if hb : b = [] then some (script, 0)
  else do
    let (result, pc2, nFound) ← findAndDeleteLoop script b hb [] 0 0 0
    if nFound > 0 then pure (result ++ script.drop pc2, nFound) else pure (script, nFound)

/-! ## Lemmas: `CheckMinimalPush` on the pushes of `operator<<` -/

theorem toNat_toUInt8_of_lt {n : Nat} (h : n < 256) : n.toUInt8.toNat = n := by
  rw [Nat.toUInt8, UInt8.toNat_ofNat']
  omega

/-- Every opcode `operator<<` writes for data is a push. -/
theorem shortestPushOpcode_le (n : Nat) : shortestPushOpcode n ≤ OP_PUSHDATA4 := by
  unfold shortestPushOpcode
  split
  · rename_i h
    rw [UInt8.le_iff_toNat_le, toNat_toUInt8_of_lt (by omega)]
    exact Nat.le_of_lt_succ (Nat.lt_of_lt_of_le h (by decide))
  · split
    · decide
    · split <;> decide

/-- The push `operator<<` writes passes the assert, and it is minimal except for the data a
number opcode pushes. -/
theorem checkMinimalPush_shortest (b : List UInt8) :
    checkMinimalPush b (shortestPushOpcode b.length) = .ok true ↔
      ¬ (b.length = 1 ∧ (1 ≤ b.getD 0 0 ∧ b.getD 0 0 ≤ 16 ∨ b.getD 0 0 = 0x81)) := by
  rw [checkMinimalPush, if_neg (not_not.mpr (shortestPushOpcode_le b.length))]
  unfold shortestPushOpcode
  by_cases h0 : b.length = 0
  · simp [h0]
    rfl
  by_cases h1 : b.length = 1
  · obtain ⟨x, rfl⟩ := List.length_eq_one_iff.mp h1
    by_cases hs : 1 ≤ x ∧ x ≤ 16
    · simp [hs]
    by_cases hn : x = 0x81
    · simp [hn]
    · simp only [List.length_singleton, List.getD_cons_zero, hs, hn, if_false,
        false_or, and_false, not_false_eq_true, iff_true, one_ne_zero]
      rfl
  by_cases h75 : b.length ≤ 75
  · have hop : (b.length.toUInt8).toNat = b.length := toNat_toUInt8_of_lt (by omega)
    simp [h0, h1, h75, show b.length < 76 by omega, hop]
  by_cases h255 : b.length ≤ 255
  · simp [h0, h1, h75, h255, show ¬ b.length < 76 by omega, show b.length < 256 by omega]
  by_cases h65535 : b.length ≤ 65535
  · simp [h0, h1, h75, h255, h65535, show ¬ b.length < 76 by omega,
      show ¬ b.length < 256 by omega, show b.length < 65536 by omega]
  · simp [h0, h1, h75, h255, h65535]

theorem getScriptOp_reads_back_pushes :
    (∀ script pc, getScriptOp script pc ≠ none ∧
      ∀ r, getScriptOp script pc = some r → r.ok = true → pc + 1 ≤ r.pc ∧ r.pc ≤ script.length) ∧
    (∀ items : List ScriptItem, (∀ item ∈ items, item.Valid) →
      (buildScript items).length < 2 ^ 31 →
      getOps (buildScript items) 0 = some (items.map ScriptItem.parsed)) ∧
    (∀ b : List UInt8, checkMinimalPush b (shortestPushOpcode b.length) = .ok true ↔
      ¬ (b.length = 1 ∧ (1 ≤ b.getD 0 0 ∧ b.getD 0 0 ≤ 16 ∨ b.getD 0 0 = 0x81))) := by
  refine ⟨fun script pc => ⟨getScriptOp_ne_none script pc, fun r h hok => ?_⟩,
    getOps_buildScript, checkMinimalPush_shortest⟩
  exact pc_lt_of_getScriptOp h hok

/-- `OP_DUP`, a direct push of three bytes and an `OP_PUSHDATA1` push of 80 bytes are read
back as written. -/
theorem getScriptOp_reads_back_pushes_dup_and_two_pushes :
    let items : List ScriptItem := [.op 0x76, .data [1, 2, 3], .data (List.replicate 80 7)]
    (∀ item ∈ items, item.Valid) ∧ (buildScript items).length < 2 ^ 31 ∧
      getOps (buildScript items) 0 = some (items.map ScriptItem.parsed) := by
  intro items
  have hvalid : ∀ item ∈ items, item.Valid := by
    intro item hitem
    simp only [items, List.mem_cons, List.not_mem_nil, or_false] at hitem
    rcases hitem with rfl | rfl | rfl <;> simp [ScriptItem.Valid, OP_PUSHDATA4]
  have hlen : (buildScript items).length < 2 ^ 31 := by decide
  exact ⟨hvalid, hlen, getScriptOp_reads_back_pushes.2.1 items hvalid hlen⟩

/-- A push of `2^31` bytes makes `end - pc` wrap to a negative `int32_t` at the opcode, and
`GetOp` refuses the script. -/
theorem getOps_buildScript_two_pow_31 :
    (ScriptItem.data (List.replicate (2 ^ 31) 0)).Valid ∧
      getOps (buildScript [.data (List.replicate (2 ^ 31) 0)]) 0 = some [] := by
  have hhead : pushHeader (2 ^ 31) = OP_PUSHDATA4 :: LittleEndian.encodeLE 4 (2 ^ 31) := by
    rw [pushHeader, if_neg (by decide), if_neg (by decide), if_neg (by decide)]
  have hlen : (buildScript [.data (List.replicate (2 ^ 31) 0)]).length = 2 ^ 31 + 5 := by
    rw [buildScript_eq]
    simp only [List.map_cons, List.map_nil, List.flatten_cons, List.flatten_nil, List.append_nil,
      ScriptItem.encode, List.length_append, List.length_replicate, hhead, List.length_cons,
      LittleEndian.length_encodeLE]
    omega
  have hwrap : iterDiff (2 ^ 31 + 5) 0 < 1 := by decide
  have hfail : getScriptOp (buildScript [.data (List.replicate (2 ^ 31) 0)]) 0 =
      some ⟨false, 0, OP_INVALIDOPCODE, []⟩ := by
    unfold getScriptOp
    rw [if_neg (by rw [hlen]; omega), hlen, if_pos hwrap]
  refine ⟨?_, getOps_of_not_ok hfail rfl⟩
  show (List.replicate (2 ^ 31) (0 : UInt8)).length < 2 ^ 32
  rw [List.length_replicate]
  decide

/-! ## Lemmas: `IsValidSignatureEncoding` is strict DER -/

/-- An integer of strict DER: at least one byte, not negative, and no zero byte on top unless
it is the only byte or keeps the next byte from reading as a sign. -/
def isDERInteger : List UInt8 → Bool
  | [] => false
  | [a] => a &&& 0x80 == 0
  | a :: b :: _ => a &&& 0x80 == 0 && !(a == 0 && b &&& 0x80 == 0)

/-- A byte string laid out as a signature, with the two lengths where the code reads them: four
bytes, the last of them `|R|`, then `R`, a byte and `|S|`, then `S` and a last byte. -/
def sigLayout (a0 a1 a2 t : UInt8) (R S : List UInt8) (sighash : UInt8) : List UInt8 :=
  [a0, a1, a2, R.length.toUInt8] ++ R ++ [t, S.length.toUInt8] ++ S ++ [sighash]

/-- `0x30 ‖ L ‖ 0x02 ‖ lenR ‖ R ‖ 0x02 ‖ lenS ‖ S ‖ sighash`, with `L` the length of what
follows it up to the sighash byte. -/
def derSignature (R S : List UInt8) (sighash : UInt8) : List UInt8 :=
  sigLayout 0x30 (R.length + S.length + 4).toUInt8 0x02 0x02 R S sighash

theorem length_sigLayout (a0 a1 a2 t : UInt8) (R S : List UInt8) (sighash : UInt8) :
    (sigLayout a0 a1 a2 t R S sighash).length = R.length + S.length + 7 := by
  simp [sigLayout]
  omega

theorem getElem?_sigLayout_tail (a0 a1 a2 t : UInt8) (R S : List UInt8) (sighash : UInt8) (i : Nat) :
    (sigLayout a0 a1 a2 t R S sighash)[R.length + 4 + i]? =
      (t :: S.length.toUInt8 :: S ++ [sighash])[i]? := by
  have : sigLayout a0 a1 a2 t R S sighash = ([a0, a1, a2, R.length.toUInt8] ++ R) ++
      (t :: S.length.toUInt8 :: S ++ [sighash]) := by simp [sigLayout]
  rw [this, List.getElem?_append_right (by simp)]
  congr 1
  simp

/-- The three tests the code makes on each integer, reading its first two bytes as `r0` and
`r1`: they let the rest `k` run exactly on a strict-DER integer. -/
theorem integer_checks (X : List UInt8) {r0 r1 : Option UInt8} (h0 : X ≠ [] → r0 = X[0]?)
    (h1 : 1 < X.length → r1 = X[1]?) (k : Option Bool) :
    (if X.length = 0 then pure false else
      r0.bind fun a => if a &&& 128 ≠ 0 then pure false else
        if X.length > 1 then r0.bind fun a => if a = 0 then
            r1.bind fun b => if b &&& 128 = 0 then pure false else k
          else k
        else k) = if isDERInteger X = true then k else some false := by
  rcases X with _ | ⟨a, _ | ⟨b, X⟩⟩
  · rfl
  · rw [h0 (by simp)]
    by_cases ha : a &&& 128 = 0 <;> simp [isDERInteger, ha]
  · rw [h0 (by simp), h1 (by simp)]
    by_cases ha : a &&& 128 = 0 <;> by_cases ha0 : a = 0 <;> by_cases hb : b &&& 128 = 0 <;>
      simp [isDERInteger, ha, ha0, hb]

/-- On a laid-out string of the right size the code checks the header bytes and both
integers. -/
theorem isValidSignatureEncoding_sigLayout (a0 a1 a2 t : UInt8) (R S : List UInt8) (sighash : UInt8)
    (hsize : 9 ≤ R.length + S.length + 7 ∧ R.length + S.length + 7 ≤ 73) :
    isValidSignatureEncoding (sigLayout a0 a1 a2 t R S sighash) =
      some (a0 == 0x30 && a1.toNat == R.length + S.length + 4 && a2 == 0x02 && t == 0x02 &&
        isDERInteger R && isDERInteger S) := by
  have hlen := length_sigLayout a0 a1 a2 t R S sighash
  have hR : R.length.toUInt8.toNat = R.length := toNat_toUInt8_of_lt (by omega)
  have hS : S.length.toUInt8.toNat = S.length := toNat_toUInt8_of_lt (by omega)
  have h4 : (sigLayout a0 a1 a2 t R S sighash)[R.length + 4]? = some t :=
    getElem?_sigLayout_tail a0 a1 a2 t R S sighash 0
  have h5 : (sigLayout a0 a1 a2 t R S sighash)[5 + R.length]? = some S.length.toUInt8 := by
    rw [show 5 + R.length = R.length + 4 + 1 by omega, getElem?_sigLayout_tail]
    rfl
  have h6 : (sigLayout a0 a1 a2 t R S sighash)[R.length + 6]? = (S ++ [sighash])[0]? := by
    rw [show R.length + 6 = R.length + 4 + 2 by omega, getElem?_sigLayout_tail]
    simp
  have h7 : (sigLayout a0 a1 a2 t R S sighash)[R.length + 7]? = (S ++ [sighash])[1]? := by
    rw [show R.length + 7 = R.length + 4 + 3 by omega, getElem?_sigLayout_tail]
    simp
  have h4' : (sigLayout a0 a1 a2 t R S sighash)[4]? = (R ++ [t])[0]? := by
    rcases R with _ | ⟨a, R'⟩ <;> rfl
  have h5' : (sigLayout a0 a1 a2 t R S sighash)[5]? = (R ++ [t, S.length.toUInt8])[1]? := by
    rcases R with _ | ⟨a, _ | ⟨b, R'⟩⟩ <;> rfl
  unfold isValidSignatureEncoding
  rw [if_neg (by omega), if_neg (by omega)]
  simp only [show (sigLayout a0 a1 a2 t R S sighash)[0]? = some a0 from rfl,
    show (sigLayout a0 a1 a2 t R S sighash)[1]? = some a1 from rfl,
    show (sigLayout a0 a1 a2 t R S sighash)[2]? = some a2 from rfl,
    show (sigLayout a0 a1 a2 t R S sighash)[3]? = some R.length.toUInt8 from rfl,
    hR, hS, h4, h5, h6, h7, h4', h5', hlen, Option.bind_eq_bind, Option.bind_some]
  by_cases h30 : a0 = 0x30
  swap
  · rw [if_pos h30]
    simp [h30]
  rw [if_neg (not_not.mpr h30)]
  by_cases hL : a1.toNat = R.length + S.length + 4
  swap
  · rw [if_pos (by omega)]
    simp [hL]
  rw [if_neg (by omega), if_neg (by omega), if_neg (by omega)]
  by_cases h2 : a2 = 0x02
  swap
  · rw [if_pos h2]
    simp [h2]
  rw [if_neg (not_not.mpr h2)]
  rw [integer_checks R (fun hne => List.getElem?_append_left (List.length_pos_iff.mpr hne))
    (fun hlt => List.getElem?_append_left hlt)]
  rw [integer_checks S (fun hne => List.getElem?_append_left (List.length_pos_iff.mpr hne))
    (fun hlt => List.getElem?_append_left hlt)]
  by_cases ht : t = 0x02 <;> cases isDERInteger R <;> cases isDERInteger S <;> simp [h30, hL, h2, ht]


/-- A string either fails the size and length tests, or is laid out as a signature. -/
theorem isValidSignatureEncoding_cases (sig : List UInt8) :
    isValidSignatureEncoding sig = some false ∨
      ∃ a0 a1 a2 t R S sighash, sig = sigLayout a0 a1 a2 t R S sighash ∧
        9 ≤ R.length + S.length + 7 ∧ R.length + S.length + 7 ≤ 73 := by
  by_cases hlo : sig.length < 9
  · left
    unfold isValidSignatureEncoding
    rw [if_pos hlo]
    rfl
  by_cases hhi : sig.length > 73
  · left
    unfold isValidSignatureEncoding
    rw [if_neg hlo, if_pos hhi]
    rfl
  obtain ⟨x0, x1, x2, x3, rest, rfl⟩ : ∃ x0 x1 x2 x3 rest, sig = x0 :: x1 :: x2 :: x3 :: rest := by
    match sig, hlo with
    | x0 :: x1 :: x2 :: x3 :: rest, _ => exact ⟨x0, x1, x2, x3, rest, rfl⟩
    | [], h | [_], h | [_, _], h | [_, _, _], h => simp at h
  simp only [List.length_cons] at hlo hhi
  by_cases hoff : 5 + x3.toNat < rest.length + 4 ∧
      x3.toNat + (rest.getD (1 + x3.toNat) 0).toNat + 7 = rest.length + 4
  · right
    obtain ⟨hoff1, hoff2⟩ := hoff
    have hdrop : (rest.drop x3.toNat).length = (rest.getD (1 + x3.toNat) 0).toNat + 3 := by
      rw [List.length_drop]
      omega
    obtain ⟨t, y, rest2, hty⟩ : ∃ t y rest2, rest.drop x3.toNat = t :: y :: rest2 := by
      match hm : rest.drop x3.toNat, hdrop with
      | t :: y :: rest2, _ => exact ⟨t, y, rest2, rfl⟩
      | [], h | [_], h => simp at h
    have hy : y = rest.getD (1 + x3.toNat) 0 := by
      have := congrArg (fun l => l.getD 1 0) hty
      simp only [List.getD_eq_getElem?_getD, List.getElem?_drop] at this
      rw [List.getD_eq_getElem?_getD, Nat.add_comm]
      simpa using this.symm
    have hrest2 : rest2.length = y.toNat + 1 := by
      have := congrArg List.length hty
      rw [hdrop, ← hy] at this
      simp at this
      omega
    obtain ⟨S, sighash, rfl⟩ : ∃ S sighash, rest2 = S ++ [sighash] := by
      rcases List.eq_nil_or_concat rest2 with h | ⟨S, sighash, h⟩
      · rw [h] at hrest2; simp at hrest2
      · exact ⟨S, sighash, by rw [h, List.concat_eq_append]⟩
    have hS : S.length = y.toNat := by simp at hrest2; omega
    have hR : (rest.take x3.toNat).length = x3.toNat := by rw [List.length_take]; omega
    have hS' : S.length = (rest.getD (1 + x3.toNat) 0).toNat := hy ▸ hS
    have h3 : (rest.take x3.toNat).length.toUInt8 = x3 := by rw [hR]; exact UInt8.ofNat_toNat
    have h5 : S.length.toUInt8 = y := by rw [hS]; exact UInt8.ofNat_toNat
    refine ⟨x0, x1, x2, t, rest.take x3.toNat, S, sighash, ?_, by omega, by omega⟩
    rw [sigLayout, h3, h5]
    conv_lhs => rw [← List.take_append_drop x3.toNat rest, hty]
    simp
  · left
    have hlen : (x0 :: x1 :: x2 :: x3 :: rest).length = rest.length + 4 := by simp
    unfold isValidSignatureEncoding
    rw [hlen, if_neg (by omega), if_neg (by omega)]
    simp only [show (x0 :: x1 :: x2 :: x3 :: rest)[0]? = some x0 from rfl,
      show (x0 :: x1 :: x2 :: x3 :: rest)[1]? = some x1 from rfl,
      show (x0 :: x1 :: x2 :: x3 :: rest)[3]? = some x3 from rfl,
      Option.bind_eq_bind, Option.bind_some]
    by_cases h30 : x0 = 48
    swap
    · rw [if_pos h30]
      rfl
    rw [if_neg (not_not.mpr h30)]
    by_cases hL : x1.toNat = rest.length + 4 - 3
    swap
    · rw [if_pos hL]
      rfl
    rw [if_neg (not_not.mpr hL)]
    by_cases hoff1 : 5 + x3.toNat < rest.length + 4
    swap
    · rw [if_pos (by omega)]
      rfl
    rw [if_neg (by omega)]
    have r5 : (x0 :: x1 :: x2 :: x3 :: rest)[5 + x3.toNat]? =
        some (rest.getD (1 + x3.toNat) 0) := by
      rw [show 5 + x3.toNat = 1 + x3.toNat + 1 + 1 + 1 + 1 by omega]
      simp only [List.getElem?_cons_succ]
      rw [List.getD_eq_getElem?_getD, List.getElem?_eq_getElem (by omega), Option.getD_some]
    rw [r5, Option.bind_some, if_pos (by omega)]
    rfl
theorem isValidSignatureEncoding_ne_none (sig : List UInt8) : isValidSignatureEncoding sig ≠ none := by
  rcases isValidSignatureEncoding_cases sig with h | ⟨a0, a1, a2, t, R, S, sighash, rfl, hsize⟩
  · rw [h]
    exact Option.some_ne_none false
  · rw [isValidSignatureEncoding_sigLayout a0 a1 a2 t R S sighash hsize]
    exact Option.some_ne_none _

theorem isValidSignatureEncoding_iff (sig : List UInt8) :
    isValidSignatureEncoding sig = some true ↔
      ∃ R S sighash, sig = derSignature R S sighash ∧ 9 ≤ sig.length ∧ sig.length ≤ 73 ∧
        isDERInteger R = true ∧ isDERInteger S = true := by
  constructor
  · intro h
    rcases isValidSignatureEncoding_cases sig with h' | ⟨a0, a1, a2, t, R, S, sighash, rfl, hsize⟩
    · rw [h'] at h
      cases h
    rw [isValidSignatureEncoding_sigLayout a0 a1 a2 t R S sighash hsize] at h
    simp only [Option.some.injEq, Bool.and_eq_true, beq_iff_eq] at h
    obtain ⟨⟨⟨⟨⟨h30, hL⟩, h2⟩, ht⟩, hR⟩, hS⟩ := h
    have ha1 : a1 = (R.length + S.length + 4).toUInt8 := by
      rw [← hL]
      exact UInt8.ofNat_toNat.symm
    refine ⟨R, S, sighash, ?_, ?_, ?_, hR, hS⟩
    · rw [derSignature, h30, ha1, h2, ht]
    · rw [length_sigLayout]
      exact hsize.1
    · rw [length_sigLayout]
      exact hsize.2
  · rintro ⟨R, S, sighash, rfl, hlo, hhi, hR, hS⟩
    rw [derSignature, length_sigLayout] at hlo hhi
    rw [derSignature, isValidSignatureEncoding_sigLayout _ _ _ _ R S sighash ⟨hlo, hhi⟩, hR, hS,
      toNat_toUInt8_of_lt (by omega)]
    simp

theorem isValidSignatureEncoding_accepts_strict_der (sig : List UInt8) :
    isValidSignatureEncoding sig ≠ none ∧
      (isValidSignatureEncoding sig = some true ↔
        ∃ R S sighash, sig = derSignature R S sighash ∧ 9 ≤ sig.length ∧ sig.length ≤ 73 ∧
          isDERInteger R = true ∧ isDERInteger S = true) :=
  ⟨isValidSignatureEncoding_ne_none sig, isValidSignatureEncoding_iff sig⟩

/-- The check on a superfluous zero byte reads `sig[5]` only when `lenR > 1`: a one-byte `R` or
`S` of `0x00`, the DER encoding of zero, is accepted. -/
theorem isValidSignatureEncoding_accepts_zero_integers :
    derSignature [0x00] [0x00] 0x01 = [0x30, 0x06, 0x02, 0x01, 0x00, 0x02, 0x01, 0x00, 0x01] ∧
      isValidSignatureEncoding (derSignature [0x00] [0x00] 0x01) = some true :=
  ⟨rfl, by decide⟩

/-! ## The reference for `FindAndDelete` -/

/-- The copies of `b` one after another from position `pc` of `s`: how many, and the
position after them. -/
def copiesAt (s b : List UInt8) (hb : b ≠ []) (pc : Nat) : Nat × Nat :=
  if _h : (s.drop pc).take b.length = b then
    ((copiesAt s b hb (pc + b.length)).1 + 1, (copiesAt s b hb (pc + b.length)).2)
  else (0, pc)
termination_by s.length - pc
decreasing_by
  all_goals
    have := length_le_of_take_eq _h
    have := List.length_pos_iff.mpr hb
    omega

theorem copiesAt_of_take_eq {s b : List UInt8} {hb : b ≠ []} {pc : Nat}
    (h : (s.drop pc).take b.length = b) :
    copiesAt s b hb pc = ((copiesAt s b hb (pc + b.length)).1 + 1, (copiesAt s b hb (pc + b.length)).2) := by
  conv_lhs => rw [copiesAt, dif_pos h]

theorem copiesAt_of_take_ne {s b : List UInt8} {hb : b ≠ []} {pc : Nat}
    (h : ¬ (s.drop pc).take b.length = b) : copiesAt s b hb pc = (0, pc) := by
  rw [copiesAt, dif_neg h]

theorem copiesAt_snd (s b : List UInt8) (hb : b ≠ []) (pc : Nat) :
    (copiesAt s b hb pc).2 = pc + (copiesAt s b hb pc).1 * b.length := by
  induction pc using copiesAt.induct s b hb with
  | case1 pc h ih =>
    rw [copiesAt_of_take_eq h, Nat.succ_mul]
    simp only at ih ⊢
    omega
  | case2 pc h =>
    rw [copiesAt_of_take_ne h]
    simp

theorem copiesAt_fst_mul_le (s b : List UInt8) (hb : b ≠ []) (pc : Nat) :
    (copiesAt s b hb pc).1 * b.length ≤ s.length - pc := by
  induction pc using copiesAt.induct s b hb with
  | case1 pc h ih =>
    have hroom := length_le_of_take_eq h
    rw [copiesAt_of_take_eq h, Nat.succ_mul]
    omega
  | case2 pc h =>
    rw [copiesAt_of_take_ne h]
    simp

/-- `s` from position `pc` on, scanned by `GetOp`: at each position a scan stops at, the copies
of `b` found there are removed; the bytes of each operation read, and the tail `GetOp` cannot
read, are kept in order.  With the number of copies removed. -/
def scanDelete (s b : List UInt8) (hb : b ≠ []) (pc : Nat) : List UInt8 × Nat :=
  match _h : getScriptOp s (copiesAt s b hb pc).2 with
  | some r =>
    if _hok : r.ok then
      ((s.drop (copiesAt s b hb pc).2).take (r.pc - (copiesAt s b hb pc).2) ++
          (scanDelete s b hb r.pc).1,
        (copiesAt s b hb pc).1 + (scanDelete s b hb r.pc).2)
    else (s.drop (copiesAt s b hb pc).2, (copiesAt s b hb pc).1)
  | none => (s.drop (copiesAt s b hb pc).2, (copiesAt s b hb pc).1)
termination_by s.length - pc
decreasing_by
  all_goals
    have := pc_lt_of_getScriptOp _h _hok
    have := copiesAt_snd s b hb pc
    omega

/-! ## Lemmas: `FindAndDelete` is the scan -/

section FindAndDelete

variable {s b : List UInt8} {hb : b ≠ []}

theorem findAndDeleteLoop_of_ok {result : List UInt8} {pc pc2 nFound : Nat} {r : ScriptOp}
    (h : getScriptOp s (skipCopies s b hb pc nFound).1 = some r) (hok : r.ok = true) :
    findAndDeleteLoop s b hb result pc pc2 nFound =
      findAndDeleteLoop s b hb (result ++ (s.drop pc2).take (pc - pc2)) r.pc
        (skipCopies s b hb pc nFound).1 (skipCopies s b hb pc nFound).2 := by
  rw [findAndDeleteLoop.eq_def]
  split
  · next heq => rw [h] at heq; cases heq
  · next r' heq =>
    rw [h, Option.some.injEq] at heq
    subst heq
    rw [dif_pos hok]

theorem findAndDeleteLoop_of_not_ok {result : List UInt8} {pc pc2 nFound : Nat} {r : ScriptOp}
    (h : getScriptOp s (skipCopies s b hb pc nFound).1 = some r) (hok : r.ok = false) :
    findAndDeleteLoop s b hb result pc pc2 nFound =
      some (result ++ (s.drop pc2).take (pc - pc2), (skipCopies s b hb pc nFound).1,
        (skipCopies s b hb pc nFound).2) := by
  rw [findAndDeleteLoop.eq_def]
  split
  · next heq => rw [h] at heq; cases heq
  · next r' heq =>
    rw [h, Option.some.injEq] at heq
    subst heq
    rw [dif_neg (by simp [hok])]

theorem scanDelete_of_ok {pc : Nat} {r : ScriptOp}
    (h : getScriptOp s (copiesAt s b hb pc).2 = some r) (hok : r.ok = true) :
    scanDelete s b hb pc =
      ((s.drop (copiesAt s b hb pc).2).take (r.pc - (copiesAt s b hb pc).2) ++
          (scanDelete s b hb r.pc).1,
        (copiesAt s b hb pc).1 + (scanDelete s b hb r.pc).2) := by
  rw [scanDelete.eq_def]
  split
  · next r' heq =>
    rw [h, Option.some.injEq] at heq
    subst heq
    rw [dif_pos hok]
  · next heq => rw [h] at heq; cases heq

theorem scanDelete_of_not_ok {pc : Nat} {r : ScriptOp}
    (h : getScriptOp s (copiesAt s b hb pc).2 = some r) (hok : r.ok = false) :
    scanDelete s b hb pc = (s.drop (copiesAt s b hb pc).2, (copiesAt s b hb pc).1) := by
  rw [scanDelete.eq_def]
  split
  · next r' heq =>
    rw [h, Option.some.injEq] at heq
    subst heq
    rw [dif_neg (by simp [hok])]
  · next heq => simp [h] at heq

/-- In a script shorter than `2^31` bytes the size test of the inner loop is implied by the
comparison: the loop skips exactly the copies `copiesAt` counts. -/
theorem skipCopies_eq (hlen : s.length < 2 ^ 31) (pc nFound : Nat) :
    skipCopies s b hb pc nFound =
      ((copiesAt s b hb pc).2, nFound + (copiesAt s b hb pc).1) := by
  induction pc using copiesAt.induct s b hb generalizing nFound with
  | case1 pc h ih =>
    have hroom := length_le_of_take_eq h
    have hpos := List.length_pos_iff.mpr hb
    have hsize : b.length ≤ ((iterDiff s.length pc).toInt % 2 ^ 64).toNat := by
      rw [toInt_iterDiff (by omega) (by omega)]
      omega
    rw [skipCopies, dif_pos ⟨hsize, h⟩, ih, copiesAt_of_take_eq h]
    simp only [Prod.mk.injEq, true_and]
    omega
  | case2 pc h =>
    rw [skipCopies, dif_neg (fun hc => h hc.2), copiesAt_of_take_ne h]
    simp

/-- The loop, entered at `pc` with `result` and `pc2`, ends with what it has copied out and a
position `pc2` whose tail, appended, gives the scan of the script from `pc`. -/
theorem findAndDeleteLoop_eq (hlen : s.length < 2 ^ 31) (pc : Nat) :
    ∀ (result : List UInt8) (pc2 nFound : Nat), ∃ R P N,
      findAndDeleteLoop s b hb result pc pc2 nFound = some (R, P, N) ∧
      R ++ s.drop P = result ++ (s.drop pc2).take (pc - pc2) ++ (scanDelete s b hb pc).1 ∧
      N = nFound + (scanDelete s b hb pc).2 := by
  induction pc using scanDelete.induct s b hb with
  | case1 pc r h hok ih =>
    intro result pc2 nFound
    have hskip : skipCopies s b hb pc nFound = _ := skipCopies_eq hlen pc nFound
    have hskip1 : (skipCopies s b hb pc nFound).1 = (copiesAt s b hb pc).2 := by rw [hskip]
    have hskip2 : (skipCopies s b hb pc nFound).2 = nFound + (copiesAt s b hb pc).1 := by
      rw [hskip]
    obtain ⟨R, P, N, hloop, hR, hN⟩ :=
      ih (result ++ (s.drop pc2).take (pc - pc2)) (copiesAt s b hb pc).2
        (nFound + (copiesAt s b hb pc).1)
    refine ⟨R, P, N, ?_, ?_, ?_⟩
    · rw [findAndDeleteLoop_of_ok (by rw [hskip1]; exact h) hok, hskip1, hskip2]
      exact hloop
    · rw [hR, scanDelete_of_ok h hok]
      simp only [List.append_assoc]
    · rw [hN, scanDelete_of_ok h hok]
      omega
  | case2 pc r h hok =>
    intro result pc2 nFound
    have hskip : skipCopies s b hb pc nFound = _ := skipCopies_eq hlen pc nFound
    have hskip1 : (skipCopies s b hb pc nFound).1 = (copiesAt s b hb pc).2 := by rw [hskip]
    have hskip2 : (skipCopies s b hb pc nFound).2 = nFound + (copiesAt s b hb pc).1 := by
      rw [hskip]
    have hok' : r.ok = false := by simpa using hok
    refine ⟨_, _, _, findAndDeleteLoop_of_not_ok (by rw [hskip1]; exact h) hok', ?_, ?_⟩
    · rw [hskip1, scanDelete_of_not_ok h hok', List.append_assoc]
    · rw [hskip2, scanDelete_of_not_ok h hok']
  | case3 pc h => exact absurd h (getScriptOp_ne_none _ _)

/-- Nothing removed, nothing changed. -/
theorem scanDelete_of_snd_eq_zero (pc : Nat) (h0 : (scanDelete s b hb pc).2 = 0) :
    (scanDelete s b hb pc).1 = s.drop pc := by
  induction pc using scanDelete.induct s b hb with
  | case1 pc r h hok ih =>
    rw [scanDelete_of_ok h hok] at h0 ⊢
    have hc : (copiesAt s b hb pc).2 = pc := by
      rw [copiesAt_snd s b hb pc]
      simp [show (copiesAt s b hb pc).1 = 0 by omega]
    have hlt := pc_lt_of_getScriptOp h hok
    rw [hc] at hlt
    rw [ih (by omega), hc]
    show (s.drop pc).take (r.pc - pc) ++ s.drop r.pc = s.drop pc
    conv_rhs => rw [← List.take_append_drop (r.pc - pc) (s.drop pc)]
    rw [List.drop_drop, Nat.add_sub_cancel' hlt.1.le]
  | case2 pc r h hok =>
    have hok' : r.ok = false := by simpa using hok
    rw [scanDelete_of_not_ok h hok'] at h0 ⊢
    simp only at h0 ⊢
    rw [copiesAt_snd s b hb pc, h0, Nat.zero_mul, Nat.add_zero]
  | case3 pc h => exact absurd h (getScriptOp_ne_none _ _)

/-- Each removed copy takes `b.length` bytes, and no other byte is lost. -/
theorem length_scanDelete (pc : Nat) :
    (scanDelete s b hb pc).1.length + (scanDelete s b hb pc).2 * b.length = s.length - pc := by
  induction pc using scanDelete.induct s b hb with
  | case1 pc r h hok ih =>
    rw [scanDelete_of_ok h hok]
    have hlt := pc_lt_of_getScriptOp h hok
    have hc := copiesAt_snd s b hb pc
    simp only [List.length_append, List.length_take, List.length_drop, Nat.add_mul]
    omega
  | case2 pc r h hok =>
    have hok' : r.ok = false := by simpa using hok
    rw [scanDelete_of_not_ok h hok']
    have hc := copiesAt_snd s b hb pc
    have hle := copiesAt_fst_mul_le s b hb pc
    simp only [List.length_drop]
    omega
  | case3 pc h => exact absurd h (getScriptOp_ne_none _ _)

theorem findAndDelete_eq_scanDelete (hlen : s.length < 2 ^ 31) :
    findAndDelete s b = some (scanDelete s b hb 0) := by
  obtain ⟨R, P, N, hloop, hR, hN⟩ := @findAndDeleteLoop_eq s b hb hlen 0 [] 0 0
  simp only [Nat.sub_self, List.drop_zero, List.take_zero, List.append_nil, List.nil_append,
    Nat.zero_add] at hR hN
  rw [findAndDelete, dif_neg hb, hloop]
  simp only [Option.bind_eq_bind, Option.bind_some]
  split_ifs with hpos
  · rw [hR, hN]
    rfl
  · have h0 : (scanDelete s b hb 0).2 = 0 := by omega
    show some (s, N) = some ((scanDelete s b hb 0).1, (scanDelete s b hb 0).2)
    rw [← hN, scanDelete_of_snd_eq_zero 0 h0, List.drop_zero]

end FindAndDelete

/-- `FindAndDelete` is the scan that removes the copies of `b` at each position `GetOp` stops
at, for a script shorter than `2 ^ 31` bytes.  The bound keeps `end - pc`, a `prevector`
difference of type `int32_t`, exact in the inner loop's `static_cast<size_t>(end - pc) >=
b.size()`: with `2 ^ 31` bytes or more left it wraps below zero and the cast makes the test
pass for every `b`, so `std::equal` reads past the end when `b` is longer than what is left,
and with `2 ^ 32` or more left it wraps to a small size and copies are missed. -/
theorem findAndDelete_removes_scanned_copies (s b : List UInt8) (hb : b ≠ [])
    (hlen : s.length < 2 ^ 31) :
    findAndDelete s b = some (scanDelete s b hb 0) ∧
      (scanDelete s b hb 0).1.length + (scanDelete s b hb 0).2 * b.length = s.length ∧
      ((scanDelete s b hb 0).2 = 0 → (scanDelete s b hb 0).1 = s) := by
  refine ⟨findAndDelete_eq_scanDelete hlen, ?_, fun h0 => ?_⟩
  · rw [length_scanDelete, Nat.sub_zero]
  · rw [scanDelete_of_snd_eq_zero 0 h0, List.drop_zero]

theorem findAndDelete_removes_scanned_copies_op1 :
    ([0x51] : List UInt8) ≠ [] ∧ ([0x51, 0x01, 0x51, 0x51] : List UInt8).length < 2 ^ 31 ∧
      findAndDelete [0x51, 0x01, 0x51, 0x51] [0x51] =
        some (scanDelete [0x51, 0x01, 0x51, 0x51] [0x51] (by decide) 0) :=
  ⟨by decide, by decide,
    (findAndDelete_removes_scanned_copies [0x51, 0x01, 0x51, 0x51] [0x51] (by decide) (by decide)).1⟩

/-- `GetOp` on the script stops at 0, 1 and 3, and a copy of `00 01` starts at 0 and at 3.
`FindAndDelete` skips the first copy, resumes `GetOp` at 2, reads `01 00` there as one push,
and so keeps the copy at 3. -/
theorem findAndDelete_keeps_copy_at_boundary :
    (getScriptOp [0x00, 0x01, 0x01, 0x00, 0x01] 0).map ScriptOp.pc = some 1 ∧
      (getScriptOp [0x00, 0x01, 0x01, 0x00, 0x01] 1).map ScriptOp.pc = some 3 ∧
      (([0x00, 0x01, 0x01, 0x00, 0x01] : List UInt8).drop 3).take 2 = [0x00, 0x01] ∧
      findAndDelete [0x00, 0x01, 0x01, 0x00, 0x01] [0x00, 0x01] = some ([0x01, 0x00, 0x01], 1) :=
  ⟨by decide, by decide, by decide, by decide +kernel⟩

end Veles
