import Mathlib.Logic.Basic
import Mathlib.Order.Defs.PartialOrder

/-!
# Forests given by parent links

A node has at most one parent, one level lower; only the roots, at level 0, have none.
Every node at level `h` has one ancestor at each level below `h`, reached by `h - h'`
parent links, and two nodes that share their root have a highest common ancestor.
Nothing here depends on what the nodes are: a pointer into an arena, a key of a map.

    up (i + j) a = (up i a).bind (up j)                                    (up_add)
    ancestorAt a h = some b → h' ≤ h → ancestorAt b h' = ancestorAt a h'   (ancestorAt_of_ancestorAt)
    IsAncestor d a ↔ d = a ∨ ∃ p, parent a = some p ∧ IsAncestor d p      (isAncestor_iff)
    IsHighestCommon c a b: c is below a and b, and every node below both is below c
-/

/-- A forest given by parent links: a parent is one level lower, and a node without a
parent is at level 0. -/
structure ParentForest (α : Type) where
  parent : α → Option α
  height : α → Nat
  height_parent : ∀ {a b}, parent a = some b → height b + 1 = height a
  height_root : ∀ {a}, parent a = none → height a = 0

namespace ParentForest

variable {α : Type} (F : ParentForest α)

/-- `k` parent links up from `a`. -/
def up : Nat → α → Option α
  | 0, a => some a
  | k + 1, a => (F.parent a).bind (up k)

/-- The ancestor of `a` at level `h`; `a` itself at its own level. -/
def ancestorAt (a : α) (h : Nat) : Option α :=
  if h ≤ F.height a then F.up (F.height a - h) a else none

/-- `d` is `a` or one of its ancestors. -/
def IsAncestor (d a : α) : Prop := F.ancestorAt a (F.height d) = some d

/-- `c` is the highest node that is an ancestor of both `a` and `b`. -/
structure IsHighestCommon (c a b : α) : Prop where
  left : F.IsAncestor c a
  right : F.IsAncestor c b
  greatest : ∀ d, F.IsAncestor d a → F.IsAncestor d b → F.IsAncestor d c

/-- `c` is the nearest ancestor of `a` that satisfies `P`, or the root below `a` if none
does. -/
structure IsNearest (P : α → Prop) (c a : α) : Prop where
  isAncestor : F.IsAncestor c a
  stop : F.parent c = none ∨ P c
  skip : ∀ d, F.IsAncestor d a → F.IsAncestor c d → d ≠ c → ¬P d

/-- The ancestors of `a`, one at each level from its root's up to its own. -/
def path (a : α) : List α := (List.range (F.height a + 1)).filterMap (F.ancestorAt a)

variable {F}

/-! ## Parent links -/

theorem up_add (i j : Nat) (a : α) : F.up (i + j) a = (F.up i a).bind (F.up j) := by
  induction i generalizing a with
  | zero => simp [up]
  | succ i ih =>
    rw [Nat.add_right_comm, up, up]
    cases F.parent a with
    | none => rfl
    | some p => exact ih p

theorem height_of_up {k : Nat} {a b : α} (h : F.up k a = some b) : F.height b + k = F.height a := by
  induction k generalizing a with
  | zero =>
    cases h
    rfl
  | succ k ih =>
    rw [up] at h
    cases hp : F.parent a with
    | none => rw [hp] at h; cases h
    | some p =>
      rw [hp, Option.bind_some] at h
      have := F.height_parent hp
      have := ih h
      omega

theorem exists_up {k : Nat} {a : α} (hk : k ≤ F.height a) : ∃ b, F.up k a = some b := by
  induction k generalizing a with
  | zero => exact ⟨a, rfl⟩
  | succ k ih =>
    cases hp : F.parent a with
    | none =>
      have := F.height_root hp
      omega
    | some p =>
      have := F.height_parent hp
      obtain ⟨b, hb⟩ := ih (a := p) (by omega)
      exact ⟨b, by rw [up, hp, Option.bind_some, hb]⟩

/-! ## Ancestors at a level -/

theorem ancestorAt_eq_none {a : α} {h : Nat} (hh : F.height a < h) : F.ancestorAt a h = none := by
  rw [ancestorAt, if_neg (by omega)]

theorem exists_ancestorAt {a : α} {h : Nat} (hh : h ≤ F.height a) :
    ∃ b, F.ancestorAt a h = some b := by
  rw [ancestorAt, if_pos hh]
  exact exists_up (by omega)

theorem height_of_ancestorAt {a b : α} {h : Nat} (hb : F.ancestorAt a h = some b) :
    F.height b = h ∧ h ≤ F.height a := by
  unfold ancestorAt at hb
  split at hb
  · have := height_of_up hb
    omega
  · cases hb

theorem ancestorAt_height (a : α) : F.ancestorAt a (F.height a) = some a := by
  rw [ancestorAt, if_pos (Nat.le_refl _), Nat.sub_self]
  rfl

/-- Below its own level, a node's ancestors are its parent's. -/
theorem ancestorAt_of_parent {a p : α} {h : Nat} (hp : F.parent a = some p)
    (hh : h < F.height a) : F.ancestorAt a h = F.ancestorAt p h := by
  have hpa := F.height_parent hp
  rw [ancestorAt, ancestorAt, if_pos (by omega), if_pos (by omega),
    show F.height a - h = F.height p - h + 1 by omega, up, hp, Option.bind_some]

theorem ancestorAt_of_ancestorAt {a b : α} {h h' : Nat} (hb : F.ancestorAt a h = some b)
    (hh : h' ≤ h) : F.ancestorAt b h' = F.ancestorAt a h' := by
  obtain ⟨hbh, hha⟩ := height_of_ancestorAt hb
  rw [ancestorAt, if_pos (by omega)] at hb
  rw [ancestorAt, ancestorAt, if_pos (by omega), if_pos (by omega),
    show F.height a - h' = (F.height a - h) + (h - h') by omega, up_add, hb, Option.bind_some, hbh]

/-! ## The ancestor order -/

theorem IsAncestor.refl (a : α) : F.IsAncestor a a := ancestorAt_height a

theorem IsAncestor.height_le {d a : α} (h : F.IsAncestor d a) : F.height d ≤ F.height a :=
  (height_of_ancestorAt h).2

theorem isAncestor_of_ancestorAt {a b : α} {h : Nat} (hb : F.ancestorAt a h = some b) :
    F.IsAncestor b a := by
  rw [IsAncestor, (height_of_ancestorAt hb).1]
  exact hb

/-- Below an ancestor's level, the ancestors of a node are the ancestor's. -/
theorem isAncestor_of_mem_filterMap {a d : α} {L : List Nat}
    (hd : d ∈ L.filterMap (F.ancestorAt a)) : F.IsAncestor d a := by
  obtain ⟨h, -, hh⟩ := List.mem_filterMap.mp hd
  exact isAncestor_of_ancestorAt hh

/-- The ancestors at a list of levels none of which is above `a` are at those levels. -/
theorem map_height_filterMap_ancestorAt {a : α} :
    ∀ {L : List Nat}, (∀ h ∈ L, h ≤ F.height a) → (L.filterMap (F.ancestorAt a)).map F.height = L
  | [], _ => rfl
  | h :: L, hL => by
    obtain ⟨b, hb⟩ := exists_ancestorAt (hL h List.mem_cons_self)
    rw [List.filterMap_cons, hb, List.map_cons, (height_of_ancestorAt hb).1,
      map_height_filterMap_ancestorAt (fun x hx => hL x (List.mem_cons_of_mem h hx))]

theorem IsAncestor.ancestorAt_eq {d a : α} (hd : F.IsAncestor d a) {h : Nat}
    (hh : h ≤ F.height d) : F.ancestorAt d h = F.ancestorAt a h :=
  ancestorAt_of_ancestorAt hd hh

theorem IsAncestor.trans {c d a : α} (hc : F.IsAncestor c d) (hd : F.IsAncestor d a) :
    F.IsAncestor c a := by
  unfold IsAncestor
  rw [← hd.ancestorAt_eq hc.height_le]
  exact hc

theorem IsAncestor.of_parent {d a p : α} (hp : F.parent a = some p) (hd : F.IsAncestor d p) :
    F.IsAncestor d a := by
  have := F.height_parent hp
  unfold IsAncestor
  rw [ancestorAt_of_parent hp (by have := hd.height_le; omega)]
  exact hd

theorem isAncestor_parent {a p : α} (hp : F.parent a = some p) : F.IsAncestor p a :=
  IsAncestor.of_parent hp (IsAncestor.refl p)

/-- Two ancestors of one node at one level are the same node. -/
theorem IsAncestor.eq_of_height_eq {c d a : α} (hc : F.IsAncestor c a) (hd : F.IsAncestor d a)
    (h : F.height c = F.height d) : c = d := by
  unfold IsAncestor at hc hd
  rw [h, hd] at hc
  exact (Option.some.inj hc).symm

theorem isAncestor_iff {d a : α} :
    F.IsAncestor d a ↔ d = a ∨ ∃ p, F.parent a = some p ∧ F.IsAncestor d p := by
  constructor
  · intro hd
    by_cases hh : F.height d = F.height a
    · exact .inl (hd.eq_of_height_eq (IsAncestor.refl a) hh)
    · have hlt : F.height d < F.height a := by have := hd.height_le; omega
      cases hp : F.parent a with
      | none =>
        have := F.height_root hp
        omega
      | some p =>
        refine .inr ⟨p, rfl, ?_⟩
        unfold IsAncestor at hd ⊢
        rwa [← ancestorAt_of_parent hp hlt]
  · rintro (rfl | ⟨p, hp, hd⟩)
    · exact IsAncestor.refl d
    · exact IsAncestor.of_parent hp hd

/-- The ancestors of a node form a chain: the lower of two is an ancestor of the higher. -/
theorem IsAncestor.of_height_le {c d a : α} (hc : F.IsAncestor c a) (hd : F.IsAncestor d a)
    (h : F.height d ≤ F.height c) : F.IsAncestor d c := by
  unfold IsAncestor
  rw [hc.ancestorAt_eq h]
  exact hd

theorem IsAncestor.antisymm {c d : α} (hc : F.IsAncestor c d) (hd : F.IsAncestor d c) : c = d :=
  hc.eq_of_height_eq (IsAncestor.refl d) (Nat.le_antisymm hc.height_le hd.height_le)

/-- A quantity that does not drop from a node's parent to the node does not drop from any
ancestor to the node. -/
theorem IsAncestor.le_of_parent_le {β : Type} [Preorder β] {f : α → β}
    (hf : ∀ a p, F.parent a = some p → f p ≤ f a) {d a : α} (hd : F.IsAncestor d a) :
    f d ≤ f a := by
  -- induction on the height of `a`, peeling one parent link at a time
  induction hh : F.height a generalizing a with
  | zero =>
    rcases isAncestor_iff.mp hd with rfl | ⟨p, hp, -⟩
    · exact le_rfl
    · have := F.height_parent hp
      omega
  | succ n ih =>
    rcases isAncestor_iff.mp hd with rfl | ⟨p, hp, hdp⟩
    · exact le_rfl
    · have := F.height_parent hp
      exact le_trans (ih hdp (by omega)) (hf a p hp)

/-- Nodes below the same root agree on their root, and so on every level they share. -/
theorem ancestorAt_zero_of_isAncestor {d a : α} (hd : F.IsAncestor d a) :
    F.ancestorAt d 0 = F.ancestorAt a 0 :=
  hd.ancestorAt_eq (Nat.zero_le _)

/-- A root is an ancestor of every node below it. -/
theorem isAncestor_of_height_zero {d a : α} (hd : F.height d = 0)
    (hroot : F.ancestorAt d 0 = F.ancestorAt a 0) : F.IsAncestor d a := by
  have h1 : F.ancestorAt d 0 = some d := hd ▸ ancestorAt_height d
  unfold IsAncestor
  rw [hd, ← hroot, h1]

/-! ## The path from the root -/

theorem path_of_root {a : α} (h : F.parent a = none) : F.path a = [a] := by
  have h0 := F.height_root h
  have ha : F.ancestorAt a 0 = some a := h0 ▸ ancestorAt_height a
  simp only [path, h0, Nat.zero_add, List.range_one, List.filterMap_cons, ha, List.filterMap_nil]

/-- The path to a node is the path to its parent, then the node. -/
theorem path_of_parent {a p : α} (hp : F.parent a = some p) : F.path a = F.path p ++ [a] := by
  have hpa := F.height_parent hp
  have hbelow : ∀ h ∈ List.range (F.height p + 1), F.ancestorAt a h = F.ancestorAt p h := by
    intro h hh
    rw [List.mem_range] at hh
    exact ancestorAt_of_parent hp (by omega)
  have hfm : ∀ f : Nat → Option α, (List.range (F.height p + 1)).filterMap f =
      ((List.range (F.height p + 1)).map f).filterMap id := by
    intro f
    rw [List.filterMap_map]
    rfl
  have hlow : (List.range (F.height p + 1)).filterMap (F.ancestorAt a) = F.path p := by
    rw [path, hfm, hfm, List.map_congr_left hbelow]
  rw [path, ← hpa, List.range_succ, List.filterMap_append, hlow, hpa]
  simp only [List.filterMap_cons, ancestorAt_height, List.filterMap_nil]

/-! ## Highest common ancestors -/

theorem IsHighestCommon.symm {c a b : α} (h : F.IsHighestCommon c a b) :
    F.IsHighestCommon c b a :=
  ⟨h.right, h.left, fun d hb ha => h.greatest d ha hb⟩

theorem IsHighestCommon.unique {c c' a b : α} (h : F.IsHighestCommon c a b)
    (h' : F.IsHighestCommon c' a b) : c = c' :=
  (h'.greatest c h.left h.right).antisymm (h.greatest c' h'.left h'.right)

theorem isHighestCommon_of_isAncestor {a b : α} (h : F.IsAncestor a b) :
    F.IsHighestCommon a a b :=
  ⟨IsAncestor.refl a, h, fun _ hda _ => hda⟩

/-- A node that is not below `b` is no common ancestor: the answer is its parent's. -/
theorem IsHighestCommon.of_parent_left {c a b p : α} (hna : ¬F.IsAncestor a b)
    (hp : F.parent a = some p) (hc : F.IsHighestCommon c p b) : F.IsHighestCommon c a b where
  left := hc.left.trans (isAncestor_parent hp)
  right := hc.right
  greatest d hda hdb := by
    rcases (isAncestor_iff).mp hda with rfl | ⟨p', hp', hdp⟩
    · exact absurd hdb hna
    · rw [hp, Option.some.injEq] at hp'
      subst hp'
      exact hc.greatest d hdp hdb

/-- Two different nodes at one level have the highest common ancestor of their parents. -/
theorem IsHighestCommon.of_parents {c a b pa pb : α} (hne : a ≠ b)
    (hh : F.height a = F.height b) (hpa : F.parent a = some pa) (hpb : F.parent b = some pb)
    (hc : F.IsHighestCommon c pa pb) : F.IsHighestCommon c a b where
  left := hc.left.trans (isAncestor_parent hpa)
  right := hc.right.trans (isAncestor_parent hpb)
  greatest d hda hdb := by
    rcases (isAncestor_iff).mp hda with rfl | ⟨p', hp', hdp⟩
    · exact absurd (hdb.eq_of_height_eq (IsAncestor.refl b) hh) hne
    · rcases (isAncestor_iff).mp hdb with rfl | ⟨q', hq', hdq⟩
      · exact absurd (hda.eq_of_height_eq (IsAncestor.refl a) hh.symm).symm hne
      · rw [hpa, Option.some.injEq] at hp'
        rw [hpb, Option.some.injEq] at hq'
        subst hp' hq'
        exact hc.greatest d hdp hdq

/-- Lifting the higher node to the other's level keeps the highest common ancestor. -/
theorem IsHighestCommon.of_ancestorAt_left {c a b x : α}
    (hx : F.ancestorAt a (F.height b) = some x) (hc : F.IsHighestCommon c x b) :
    F.IsHighestCommon c a b where
  left := hc.left.trans (isAncestor_of_ancestorAt hx)
  right := hc.right
  greatest d hda hdb := by
    have hxa := isAncestor_of_ancestorAt hx
    have hdx : F.height d ≤ F.height x := by
      rw [(height_of_ancestorAt hx).1]
      exact hdb.height_le
    exact hc.greatest d (hxa.of_height_le hda hdx) hdb

/-- Two roots of one tree are one node. -/
theorem eq_of_height_zero {a b : α} (ha : F.height a = 0) (hb : F.height b = 0)
    (hroot : F.ancestorAt a 0 = F.ancestorAt b 0) : a = b := by
  have h1 : F.ancestorAt a 0 = some a := ha ▸ ancestorAt_height a
  have h2 : F.ancestorAt b 0 = some b := hb ▸ ancestorAt_height b
  rw [h1, h2] at hroot
  exact Option.some.inj hroot

end ParentForest
