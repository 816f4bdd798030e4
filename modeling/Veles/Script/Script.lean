import Mathlib
import Veles.Lib.LittleEndian

/-!
# Scripts: reading one operation, and `operator<<`

A `CScript` is a `prevector<28, unsigned char>`, here the list of its bytes, with a position
`pc` for an iterator into it.  The iterators' `difference_type` is `int32_t`, so `end - pc` is
the distance taken modulo `2^32` into the range of an `int32_t` (`iterDiff`).  `GetScriptOp`
reads one operation: the opcode and, for a push, the size in zero, one, two or four bytes
after it and then the data.  Every byte it reads is read through `script[i]?`, where `none` is
a read past the end, so that the model itself says where the code reads.  `operator<<`
appends an opcode, or a data vector with the shortest of the four push forms in front.

    getScriptOp script pc ≠ none                                   (getScriptOp_ne_none)
    getScriptOp script pc = some r → r.ok → pc < r.pc ≤ script.length (pc_lt_of_getScriptOp)
    items valid, script shorter than 2^31 →
      getOps (buildScript items) 0 = some (items.map ScriptItem.parsed)  (getOps_buildScript)
-/

namespace Veles

open LittleEndian

/-! ## Algorithm -/

def OP_0 : UInt8 := 0x00
def OP_PUSHDATA1 : UInt8 := 0x4c
def OP_PUSHDATA2 : UInt8 := 0x4d
def OP_PUSHDATA4 : UInt8 := 0x4e
def OP_1NEGATE : UInt8 := 0x4f
def OP_INVALIDOPCODE : UInt8 := 0xff

/-- `end - pc` on the iterators of `CScriptBase`, whose `difference_type` is `int32_t`. -/
def iterDiff (a b : Nat) : Int32 := Int32.ofInt ((a : Int) - b)

/-- What `GetScriptOp` leaves: its result, `pc`, `opcodeRet` and `*pvchRet`. -/
structure ScriptOp where
  ok : Bool
  pc : Nat
  opcodeRet : UInt8
  vchRet : List UInt8
  deriving DecidableEq, Repr

/-- The `n` bytes from `i`, read one at a time; a read past the end of the script has no
value. -/
def readBytes (script : List UInt8) (i : Nat) : Nat → Option (List UInt8)
  | 0 => some []
  | n + 1 => do
    let x ← script[i]?
    let xs ← readBytes script (i + 1) n
    pure (x :: xs)

/-- A size of `width` little-endian bytes at `pc` (`*pc++`, `ReadLE16`, `ReadLE32`), behind
the test `end - pc < width` that makes `GetScriptOp` return false (the inner `none`). -/
def readSize (script : List UInt8) (pc width : Nat) : Option (Option (Nat × Nat)) :=
  if iterDiff script.length pc < Int32.ofNat width then some none
  else (readBytes script pc width).map fun bs => some (decodeLE bs, pc + width)

/-- The size of the data of a push opcode, read from `pc` on, and where the data starts. -/
def pushSize (script : List UInt8) (opcode : UInt8) (pc : Nat) : Option (Option (Nat × Nat)) :=
  if opcode < OP_PUSHDATA1 then some (some (opcode.toNat, pc))
  else if opcode = OP_PUSHDATA1 then readSize script pc 1
  else if opcode = OP_PUSHDATA2 then readSize script pc 2
  else if opcode = OP_PUSHDATA4 then readSize script pc 4
  else some (some (0, pc))

/-- `GetScriptOp(pc, end, opcodeRet, pvchRet)` from position `pc` of the script. -/
def getScriptOp (script : List UInt8) (pc : Nat) : Option ScriptOp :=
  let fail (pc : Nat) : Option ScriptOp := some ⟨false, pc, OP_INVALIDOPCODE, []⟩
  if pc ≥ script.length then fail pc
  else if iterDiff script.length pc < 1 then fail pc
  else do
    let opcode ← script[pc]?
    if opcode ≤ OP_PUSHDATA4 then
      match ← pushSize script opcode (pc + 1) with
      | none => fail (pc + 1)
      | some (nSize, pc) =>
        let d := iterDiff script.length pc
        if d < 0 ∨ d.toUInt32.toNat < nSize then fail pc
        else do
          let vch ← readBytes script pc nSize
          pure ⟨true, pc + nSize, opcode, vch⟩
    else pure ⟨true, pc + 1, opcode, []⟩

/-- The push header `operator<<` writes in front of a data vector of `n` bytes. -/
def pushHeader (n : Nat) : List UInt8 :=
  if n < OP_PUSHDATA1.toNat then [n.toUInt8]
  else if n ≤ 0xff then [OP_PUSHDATA1, n.toUInt8]
  else if n ≤ 0xffff then OP_PUSHDATA2 :: encodeLE 2 n
  else OP_PUSHDATA4 :: encodeLE 4 n

/-- `CScript::operator<<(const std::vector<unsigned char>& b)`. -/
def pushData (script b : List UInt8) : List UInt8 := script ++ pushHeader b.length ++ b

/-- `CScript::operator<<(opcodetype opcode)`; an `opcodetype` is a byte here, so the test
`opcode > 0xff` never throws. -/
def pushOpcode (script : List UInt8) (opcode : UInt8) : List UInt8 := script ++ [opcode]

/-- What `operator<<` appends: an opcode, or a data vector. -/
inductive ScriptItem where
  | op (opcode : UInt8)
  | data (b : List UInt8)
  deriving DecidableEq, Repr

/-- `script << item`. -/
def ScriptItem.appendTo (script : List UInt8) : ScriptItem → List UInt8
  | .op opcode => pushOpcode script opcode
  | .data b => pushData script b

/-- A script built by `<<` from the empty script. -/
def buildScript (items : List ScriptItem) : List UInt8 := items.foldl ScriptItem.appendTo []

/-! ## Lemmas: the iterator difference and the reads -/

theorem toInt_iterDiff_le {a b : Nat} (h : b ≤ a) : (iterDiff a b).toInt ≤ a - b := by
  have hsize : ((Int32.size : Nat) : Int) = 4294967296 := rfl
  rw [iterDiff, Int32.toInt_ofInt, Int.bmod_def, hsize]
  split <;> omega

/-- Below `2^31` the difference is exact. -/
theorem toInt_iterDiff {a b : Nat} (h : b ≤ a) (h' : a - b < 2 ^ 31) :
    (iterDiff a b).toInt = a - b := by
  have hsize : ((Int32.size : Nat) : Int) = 4294967296 := rfl
  rw [iterDiff, Int32.toInt_ofInt, Int.bmod_def, hsize]
  split <;> omega

/-- `(unsigned int)(end - pc)`. -/
theorem toNat_toUInt32_iterDiff {a b : Nat} (h : b ≤ a) :
    (iterDiff a b).toUInt32.toNat = (a - b) % 2 ^ 32 := by
  show (iterDiff a b).toBitVec.toNat = _
  rw [iterDiff, Int32.toBitVec_ofInt, BitVec.toNat_ofInt]
  omega

theorem readBytes_of_le {script : List UInt8} {i n : Nat} (h : i + n ≤ script.length) :
    readBytes script i n = some ((script.drop i).take n) := by
  induction n generalizing i with
  | zero => simp [readBytes]
  | succ n ih =>
    have hi : i < script.length := by omega
    rw [readBytes, List.getElem?_eq_getElem hi, ih (by omega), List.drop_eq_getElem_cons hi,
      List.take_succ_cons]
    rfl

theorem toInt_ofNat_of_le {w : Nat} (hw : w ≤ 4) : (Int32.ofNat w).toInt = w := by
  have hsize : ((Int32.size : Nat) : Int) = 4294967296 := rfl
  rw [Int32.toInt_ofNat', Int.bmod_def, hsize]
  split <;> omega

/-! ## Lemmas: `GetScriptOp` reads inside the script and moves forward -/

theorem readSize_spec (script : List UInt8) {pc w : Nat} (hpc : pc ≤ script.length) (hw : w ≤ 4) :
    ∃ r, readSize script pc w = some r ∧
      ∀ nSize pc', r = some (nSize, pc') → pc' = pc + w ∧ pc' ≤ script.length := by
  unfold readSize
  split_ifs with hlt
  · exact ⟨none, rfl, by simp⟩
  · have hroom : pc + w ≤ script.length := by
      rw [Int32.lt_iff_toInt_lt, toInt_ofNat_of_le hw] at hlt
      have := toInt_iterDiff_le hpc
      omega
    refine ⟨some (decodeLE ((script.drop pc).take w), pc + w), ?_, ?_⟩
    · rw [readBytes_of_le hroom]
      rfl
    · rintro nSize pc' ⟨⟩
      exact ⟨rfl, hroom⟩

theorem pushSize_spec (script : List UInt8) (opcode : UInt8) {pc : Nat}
    (hpc : pc ≤ script.length) :
    ∃ r, pushSize script opcode pc = some r ∧
      ∀ nSize pc', r = some (nSize, pc') → pc ≤ pc' ∧ pc' ≤ script.length := by
  have hsized : ∀ w, w ≤ 4 → ∃ r, readSize script pc w = some r ∧
      ∀ nSize pc', r = some (nSize, pc') → pc ≤ pc' ∧ pc' ≤ script.length := by
    intro w hw
    obtain ⟨r, hr, hbound⟩ := readSize_spec script hpc hw
    refine ⟨r, hr, fun nSize pc' h => ?_⟩
    obtain ⟨rfl, hle⟩ := hbound nSize pc' h
    exact ⟨by omega, hle⟩
  unfold pushSize
  split_ifs
  · exact ⟨_, rfl, by rintro nSize pc' ⟨⟩; exact ⟨le_rfl, hpc⟩⟩
  · exact hsized 1 (by omega)
  · exact hsized 2 (by omega)
  · exact hsized 4 (by omega)
  · exact ⟨_, rfl, by rintro nSize pc' ⟨⟩; exact ⟨le_rfl, hpc⟩⟩

/-- Every call returns (no read leaves the script), and a successful one moves `pc` forward
and not past the end. -/
theorem getScriptOp_spec (script : List UInt8) (pc : Nat) :
    ∃ r, getScriptOp script pc = some r ∧ (r.ok = true → pc < r.pc ∧ r.pc ≤ script.length) := by
  unfold getScriptOp
  split_ifs with hend hdiff
  · exact ⟨_, rfl, by simp⟩
  · exact ⟨_, rfl, by simp⟩
  have hpc : pc < script.length := by omega
  rw [List.getElem?_eq_getElem hpc]
  simp only [Option.bind_eq_bind, Option.bind_some]
  split_ifs with hpush
  · obtain ⟨r, hr, hbound⟩ := pushSize_spec script script[pc] (show pc + 1 ≤ script.length by omega)
    rw [hr, Option.bind_some]
    rcases r with _ | ⟨nSize, pc'⟩
    · exact ⟨_, rfl, by simp⟩
    obtain ⟨hlo, hhi⟩ := hbound nSize pc' rfl
    simp only
    split_ifs with hfit
    · exact ⟨_, rfl, by simp⟩
    · have hroom : pc' + nSize ≤ script.length := by
        rw [not_or, not_lt, toNat_toUInt32_iterDiff hhi] at hfit
        omega
      rw [readBytes_of_le hroom]
      exact ⟨_, rfl, fun _ => ⟨show pc < pc' + nSize by omega, hroom⟩⟩
  · exact ⟨_, rfl, fun _ => ⟨show pc < pc + 1 by omega, show pc + 1 ≤ script.length by omega⟩⟩

theorem getScriptOp_ne_none (script : List UInt8) (pc : Nat) : getScriptOp script pc ≠ none := by
  obtain ⟨r, hr, -⟩ := getScriptOp_spec script pc
  rw [hr]
  exact Option.some_ne_none r

theorem pc_lt_of_getScriptOp {script : List UInt8} {pc : Nat} {r : ScriptOp}
    (h : getScriptOp script pc = some r) (hok : r.ok = true) : pc < r.pc ∧ r.pc ≤ script.length := by
  obtain ⟨r', hr', hadv⟩ := getScriptOp_spec script pc
  rw [h, Option.some.injEq] at hr'
  subst hr'
  exact hadv hok

/-! ## The parse loop -/

/-- `while (GetOp(pc, opcode, vch))` from `pc`: the operations read until a call returns
false.  It stops because every successful call moves `pc` forward. -/
def getOps (script : List UInt8) (pc : Nat) : Option (List (UInt8 × List UInt8)) :=
  match h : getScriptOp script pc with
  | none => none
  | some r =>
    if hok : r.ok then
      have := pc_lt_of_getScriptOp h hok
      (getOps script r.pc).map ((r.opcodeRet, r.vchRet) :: ·)
    else some []
termination_by script.length - pc

/-! ## Lemmas: reading back what `operator<<` wrote -/

/-- An item `operator<<` writes and `GetOp` reads back: an opcode that is no push, or data
whose size fits the four bytes of `OP_PUSHDATA4`. -/
def ScriptItem.Valid : ScriptItem → Prop
  | .op opcode => OP_PUSHDATA4 < opcode
  | .data b => b.length < 2 ^ 32

/-- The push opcode for `n` bytes: the shortest of the direct, `OP_PUSHDATA1`, `OP_PUSHDATA2`
and `OP_PUSHDATA4` forms, each of which holds sizes below `76`, `2^8`, `2^16` and `2^32`. -/
def shortestPushOpcode (n : Nat) : UInt8 :=
  if n < 76 then n.toUInt8
  else if n < 2 ^ 8 then OP_PUSHDATA1
  else if n < 2 ^ 16 then OP_PUSHDATA2
  else OP_PUSHDATA4

/-- What `GetOp` should read for an item: the opcode and, for data, the data. -/
def ScriptItem.parsed : ScriptItem → UInt8 × List UInt8
  | .op opcode => (opcode, [])
  | .data b => (shortestPushOpcode b.length, b)

/-- The bytes `<<` appends for an item. -/
def ScriptItem.encode : ScriptItem → List UInt8
  | .op opcode => [opcode]
  | .data b => pushHeader b.length ++ b

theorem appendTo_eq (script : List UInt8) (item : ScriptItem) :
    item.appendTo script = script ++ item.encode := by
  cases item <;> simp [ScriptItem.appendTo, ScriptItem.encode, pushOpcode, pushData]

theorem foldl_appendTo (script : List UInt8) (items : List ScriptItem) :
    items.foldl ScriptItem.appendTo script = script ++ (items.map ScriptItem.encode).flatten := by
  induction items generalizing script with
  | nil => simp
  | cons item items ih => simp [ih, appendTo_eq]

theorem buildScript_eq (items : List ScriptItem) :
    buildScript items = (items.map ScriptItem.encode).flatten := by
  rw [buildScript, foldl_appendTo, List.nil_append]

theorem getScriptOp_of_ge {script : List UInt8} {pc : Nat} (h : script.length ≤ pc) :
    getScriptOp script pc = some ⟨false, pc, OP_INVALIDOPCODE, []⟩ := by
  rw [getScriptOp, if_pos h]

/-- One pass of the loop: a successful call, then the rest of the loop from where it left. -/
theorem getOps_of_ok {script : List UInt8} {pc : Nat} {r : ScriptOp}
    (h : getScriptOp script pc = some r) (hok : r.ok = true) :
    getOps script pc = (getOps script r.pc).map ((r.opcodeRet, r.vchRet) :: ·) := by
  rw [getOps.eq_def]
  split
  · next heq => rw [h] at heq; cases heq
  · next r' heq =>
    rw [h, Option.some.injEq] at heq
    subst heq
    rw [dif_pos hok]

theorem getOps_of_not_ok {script : List UInt8} {pc : Nat} {r : ScriptOp}
    (h : getScriptOp script pc = some r) (hok : r.ok = false) : getOps script pc = some [] := by
  rw [getOps.eq_def]
  split
  · next heq => rw [h] at heq; cases heq
  · next r' heq =>
    rw [h, Option.some.injEq] at heq
    subst heq
    rw [dif_neg (by simp [hok])]

theorem getOps_of_ge {script : List UInt8} {pc : Nat} (h : script.length ≤ pc) :
    getOps script pc = some [] :=
  getOps_of_not_ok (getScriptOp_of_ge h) rfl

section Short

/-! In a script shorter than `2^31` bytes every `end - pc` is exact. -/

variable {script : List UInt8} (hlen : script.length < 2 ^ 31)
include hlen

theorem not_iterDiff_lt {pc w : Nat} (hw : w ≤ 4) (h : pc + w ≤ script.length) :
    ¬ iterDiff script.length pc < Int32.ofNat w := by
  rw [Int32.lt_iff_toInt_lt, toInt_iterDiff (by omega) (by omega), toInt_ofNat_of_le hw]
  omega

theorem readSize_of_le {pc w : Nat} (hw : w ≤ 4) (h : pc + w ≤ script.length) :
    readSize script pc w = some (some (decodeLE ((script.drop pc).take w), pc + w)) := by
  rw [readSize, if_neg (not_iterDiff_lt hlen hw h), readBytes_of_le h]
  rfl

theorem not_iterDiff_lt_one {pc : Nat} (hpc : pc < script.length) :
    ¬ iterDiff script.length pc < 1 :=
  not_iterDiff_lt hlen (w := 1) (by omega) (by omega)

theorem getScriptOp_of_op {pc : Nat} (hpc : pc < script.length) (hop : OP_PUSHDATA4 < script[pc]) :
    getScriptOp script pc = some ⟨true, pc + 1, script[pc], []⟩ := by
  rw [getScriptOp, if_neg (by omega), if_neg (not_iterDiff_lt_one hlen hpc),
    List.getElem?_eq_getElem hpc]
  simp only [Option.bind_eq_bind, Option.bind_some, if_neg (UInt8.not_le.mpr hop)]
  rfl

theorem getScriptOp_of_push {pc pc' nSize : Nat} (hpc : pc < script.length)
    (hop : script[pc] ≤ OP_PUSHDATA4)
    (hsize : pushSize script script[pc] (pc + 1) = some (some (nSize, pc')))
    (hread : pc' + nSize ≤ script.length) :
    getScriptOp script pc = some ⟨true, pc' + nSize, script[pc], (script.drop pc').take nSize⟩ := by
  have hfit : ¬ (iterDiff script.length pc' < 0 ∨
      (iterDiff script.length pc').toUInt32.toNat < nSize) := by
    rw [Int32.lt_iff_toInt_lt, toInt_iterDiff (by omega) (by omega),
      toNat_toUInt32_iterDiff (by omega), Int32.toInt_zero]
    omega
  rw [getScriptOp, if_neg (by omega), if_neg (not_iterDiff_lt_one hlen hpc),
    List.getElem?_eq_getElem hpc]
  simp only [Option.bind_eq_bind, Option.bind_some, if_pos hop, hsize]
  rw [if_neg hfit, readBytes_of_le hread]
  rfl

/-- A push header of `operator<<` in front of its data, when the size it announces is read
back from the bytes after the opcode. -/
theorem getScriptOp_header (pre b post : List UInt8) {op : UInt8} {sz : List UInt8}
    (hscript : script = pre ++ (pushHeader b.length ++ b) ++ post)
    (hhead : pushHeader b.length = op :: sz) (hop : op ≤ OP_PUSHDATA4)
    (hsize : pushSize script op (pre.length + 1) =
      some (some (b.length, pre.length + 1 + sz.length))) :
    getScriptOp script pre.length =
      some ⟨true, pre.length + (pushHeader b.length ++ b).length, op, b⟩ := by
  have hpc : pre.length < script.length := by simp [hscript, hhead]
  have hop' : script[pre.length] = op := by simp [hscript, hhead]
  have hread : pre.length + 1 + sz.length + b.length ≤ script.length := by
    simp [hscript, hhead]
    omega
  rw [getScriptOp_of_push hlen hpc (hop' ▸ hop) (hop' ▸ hsize) hread, hop']
  have hdata : (script.drop (pre.length + 1 + sz.length)).take b.length = b := by
    have hsplit : script = (pre ++ op :: sz) ++ (b ++ post) := by simp [hscript, hhead]
    rw [hsplit, List.drop_left' (by simp; omega), List.take_left' rfl]
  rw [hdata, hhead]
  simp only [List.cons_append, List.length_cons, List.length_append]
  congr 2
  omega

/-- The bytes after `OP_PUSHDATA1`, `OP_PUSHDATA2` or `OP_PUSHDATA4` give the size they
were written with. -/
theorem pushSize_pushdata (pre b post : List UInt8) {op : UInt8} {w : Nat}
    (hscript : script = pre ++ (pushHeader b.length ++ b) ++ post)
    (hhead : pushHeader b.length = op :: encodeLE w b.length) (hw : w ≤ 4)
    (hsizes : pushSize script op (pre.length + 1) = readSize script (pre.length + 1) w)
    (hfit : b.length < 256 ^ w) :
    pushSize script op (pre.length + 1) =
      some (some (b.length, pre.length + 1 + (encodeLE w b.length).length)) := by
  have hroom : pre.length + 1 + w ≤ script.length := by
    simp [hscript, hhead]
    omega
  have hbytes : (script.drop (pre.length + 1)).take w = encodeLE w b.length := by
    simp [hscript, hhead, List.drop_append, List.take_append]
  rw [hsizes, readSize_of_le hlen hw hroom, hbytes, decodeLE_encodeLE, Nat.mod_eq_of_lt hfit,
    length_encodeLE]

theorem getScriptOp_encode (pre post : List UInt8) (item : ScriptItem) (hv : item.Valid)
    (hscript : script = pre ++ item.encode ++ post) :
    getScriptOp script pre.length =
      some ⟨true, pre.length + item.encode.length, item.parsed.1, item.parsed.2⟩ := by
  cases item with
  | op opcode =>
    have hpc : pre.length < script.length := by simp [hscript, ScriptItem.encode]
    have hop : script[pre.length] = opcode := by simp [hscript, ScriptItem.encode]
    rw [getScriptOp_of_op hlen hpc (hop ▸ hv), hop]
    rfl
  | data b =>
    have hv : b.length < 2 ^ 32 := hv
    simp only [ScriptItem.encode, ScriptItem.parsed] at hscript ⊢
    -- the four forms of the header, as `pushHeader` chooses them
    by_cases h1 : b.length < 76
    · have hhead : pushHeader b.length = b.length.toUInt8 :: [] := by
        simp [pushHeader, show b.length < OP_PUSHDATA1.toNat from h1]
      have hnat : b.length.toUInt8.toNat = b.length := by
        rw [Nat.toUInt8, UInt8.toNat_ofNat']
        omega
      have hsize : pushSize script b.length.toUInt8 (pre.length + 1) =
          some (some (b.length, pre.length + 1 + ([] : List UInt8).length)) := by
        rw [pushSize, if_pos (by rw [UInt8.lt_iff_toNat_lt, hnat]; exact h1), hnat]
        rfl
      rw [getScriptOp_header hlen pre b post hscript hhead
        (by rw [UInt8.le_iff_toNat_le, hnat]; exact (by decide : (76 : Nat) ≤ 78) |>.trans' h1.le)
        hsize]
      simp [shortestPushOpcode, h1]
    by_cases h2 : b.length < 2 ^ 8
    · have hhead : pushHeader b.length = OP_PUSHDATA1 :: encodeLE 1 b.length := by
        simp [pushHeader, show ¬ b.length < OP_PUSHDATA1.toNat from h1,
          show b.length ≤ 0xff by omega]
        rfl
      rw [getScriptOp_header hlen pre b post hscript hhead (by decide)
        (pushSize_pushdata hlen pre b post hscript hhead (by omega) (by rfl) h2)]
      simp [shortestPushOpcode, h1, show b.length < 256 from h2]
    by_cases h3 : b.length < 2 ^ 16
    · have hhead : pushHeader b.length = OP_PUSHDATA2 :: encodeLE 2 b.length := by
        simp [pushHeader, show ¬ b.length < OP_PUSHDATA1.toNat from h1,
          show ¬ b.length ≤ 0xff by omega, show b.length ≤ 0xffff by omega]
      rw [getScriptOp_header hlen pre b post hscript hhead (by decide)
        (pushSize_pushdata hlen pre b post hscript hhead (by omega) (by rfl) h3)]
      simp [shortestPushOpcode, h1, show ¬ b.length < 256 from h2, show b.length < 65536 from h3]
    · have hhead : pushHeader b.length = OP_PUSHDATA4 :: encodeLE 4 b.length := by
        simp [pushHeader, show ¬ b.length < OP_PUSHDATA1.toNat from h1,
          show ¬ b.length ≤ 0xff by omega, show ¬ b.length ≤ 0xffff by omega]
      rw [getScriptOp_header hlen pre b post hscript hhead (by decide)
        (pushSize_pushdata hlen pre b post hscript hhead (by omega) (by rfl) hv)]
      simp [shortestPushOpcode, h1, show ¬ b.length < 256 from h2,
        show ¬ b.length < 65536 from h3]

end Short

/-- The loop reads back, one by one, the items written after `pre`. -/
theorem getOps_encode (pre : List UInt8) (items : List ScriptItem)
    (hv : ∀ item ∈ items, item.Valid)
    (hlen : (pre ++ (items.map ScriptItem.encode).flatten).length < 2 ^ 31) :
    getOps (pre ++ (items.map ScriptItem.encode).flatten) pre.length =
      some (items.map ScriptItem.parsed) := by
  induction items generalizing pre with
  | nil => exact getOps_of_ge (by simp)
  | cons item items ih =>
    have hscript : pre ++ ((item :: items).map ScriptItem.encode).flatten =
        pre ++ item.encode ++ (items.map ScriptItem.encode).flatten := by simp
    rw [hscript] at hlen ⊢
    rw [getOps_of_ok (getScriptOp_encode hlen pre _ item (hv item (by simp)) rfl) rfl]
    have hrest := ih (pre ++ item.encode) (fun it h => hv it (by simp [h])) hlen
    rw [List.length_append] at hrest
    rw [hrest]
    rfl

theorem getOps_buildScript (items : List ScriptItem) (hv : ∀ item ∈ items, item.Valid)
    (hlen : (buildScript items).length < 2 ^ 31) :
    getOps (buildScript items) 0 = some (items.map ScriptItem.parsed) := by
  rw [buildScript_eq] at hlen ⊢
  exact getOps_encode [] items hv hlen

end Veles
