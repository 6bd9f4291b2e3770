/-!
# Strictly ascending lists

A finite set is kept as the one list that names its members in strictly
ascending order.  This module holds the insertion that keeps such a list, the
set type built on it, and the finite maps whose keys are kept the same way.  Its
main statements say that insertion keeps the order, adds exactly the given
element, and that the members determine the list.
-/

namespace LinearTemporal

/-!
## Insertion into an ascending list

An element that is there already is kept once, so the list of a set never depends on how
often its members were inserted.  `check` compares neighbours only, which is enough for
a transitive order.  Two ascending lists with the same members are the same list.
-/

namespace Ascending

variable {α : Type} [Ord α]

/-- Strictly ascending: every element is below all later ones. -/
def IsAscending (xs : List α) : Prop :=
  xs.Pairwise (fun x y => compare x y = .lt)

def insert (x : α) : List α → List α
  | [] => [x]
  | y :: ys =>
      match compare x y with
      | .lt => x :: y :: ys
      | .eq => y :: ys
      | .gt => y :: insert x ys

def ofList (xs : List α) : List α :=
  xs.foldl (fun sorted x => insert x sorted) []

def check : List α → Bool
  | [] => true
  | [_] => true
  | x :: y :: ys => compare x y == .lt && check (y :: ys)

theorem mem_insert [Std.LawfulEqOrd α] {x y : α} {xs : List α} :
    y ∈ insert x xs ↔ y = x ∨ y ∈ xs := by
  induction xs with
  | nil =>
      simp [insert]
  | cons z zs ih =>
      unfold insert
      split
      · simp
      · rename_i hxz
        have hx : x = z := Std.LawfulEqOrd.eq_of_compare hxz
        simp [hx]
      · simp only [List.mem_cons, ih]
        constructor
        · rintro (h | h | h) <;> simp [h]
        · rintro (h | h | h) <;> simp [h]

theorem isAscending_insert [Std.TransOrd α] [Std.LawfulEqOrd α]
    {x : α} {xs : List α} (h : IsAscending xs) :
    IsAscending (insert x xs) := by
  induction xs with
  | nil =>
      simp [insert, IsAscending]
  | cons z zs ih =>
      have hz : ∀ y ∈ zs, compare z y = .lt := (List.pairwise_cons.mp h).1
      have hzs : IsAscending zs := (List.pairwise_cons.mp h).2
      unfold insert
      split
      · rename_i hxz
        refine List.pairwise_cons.mpr ⟨?_, h⟩
        intro y hy
        cases hy with
        | head => exact hxz
        | tail _ hy => exact Std.TransCmp.lt_trans hxz (hz y hy)
      · exact h
      · rename_i hxz
        refine List.pairwise_cons.mpr ⟨?_, ih hzs⟩
        intro y hy
        cases mem_insert.mp hy with
        | inl hyx =>
            rw [hyx]
            exact Std.OrientedCmp.lt_of_gt hxz
        | inr hy => exact hz y hy

theorem isAscending_foldl_insert [Std.TransOrd α] [Std.LawfulEqOrd α]
    {xs sorted : List α} (h : IsAscending sorted) :
    IsAscending (xs.foldl (fun acc x => insert x acc) sorted) := by
  induction xs generalizing sorted with
  | nil => exact h
  | cons x xs ih => exact ih (isAscending_insert h)

theorem mem_foldl_insert [Std.LawfulEqOrd α] {y : α} {xs sorted : List α} :
    y ∈ xs.foldl (fun acc x => insert x acc) sorted ↔ y ∈ sorted ∨ y ∈ xs := by
  induction xs generalizing sorted with
  | nil => simp
  | cons x xs ih =>
      simp only [List.foldl_cons, ih, mem_insert, List.mem_cons]
      constructor
      · rintro ((h | h) | h) <;> simp [h]
      · rintro (h | h | h) <;> simp [h]

theorem isAscending_ofList [Std.TransOrd α] [Std.LawfulEqOrd α] (xs : List α) :
    IsAscending (ofList xs) :=
  isAscending_foldl_insert List.Pairwise.nil

theorem mem_ofList [Std.LawfulEqOrd α] {y : α} {xs : List α} :
    y ∈ ofList xs ↔ y ∈ xs := by
  simp [ofList, mem_foldl_insert]

theorem check_eq_true_iff [Std.TransOrd α] {xs : List α} :
    check xs = true ↔ IsAscending xs := by
  match xs with
  | [] => simp [check, IsAscending]
  | [x] => simp [check, IsAscending]
  | x :: y :: ys =>
      have ih : check (y :: ys) = true ↔ IsAscending (y :: ys) := check_eq_true_iff
      simp only [check, Bool.and_eq_true, ih, IsAscending]
      constructor
      · rintro ⟨hxy, h⟩
        refine List.pairwise_cons.mpr ⟨?_, h⟩
        intro z hz
        have hlt : compare x y = .lt := by simpa using hxy
        cases hz with
        | head => exact hlt
        | tail _ hz =>
            exact Std.TransCmp.lt_trans hlt ((List.pairwise_cons.mp h).1 z hz)
      · intro h
        have hx := (List.pairwise_cons.mp h).1 y (List.mem_cons_self ..)
        exact ⟨by simp [hx], (List.pairwise_cons.mp h).2⟩

theorem IsAscending.tail {x : α} {xs : List α} (h : IsAscending (x :: xs)) :
    IsAscending xs :=
  (List.pairwise_cons.mp h).2

theorem compare_self_ne_lt [Std.ReflOrd α] (x : α) : compare x x ≠ .lt := by
  intro h
  have hself : compare x x = .eq := Std.ReflCmp.compare_self
  rw [hself] at h
  cases h

theorem IsAscending.nodup [Std.ReflOrd α] {xs : List α} (h : IsAscending xs) : xs.Nodup := by
  apply List.Pairwise.imp _ h
  rintro x _ hlt rfl
  exact compare_self_ne_lt x hlt

theorem IsAscending.ext [Std.TransOrd α] {xs ys : List α}
    (hx : IsAscending xs) (hy : IsAscending ys) (h : ∀ z, z ∈ xs ↔ z ∈ ys) :
    xs = ys := by
  induction xs generalizing ys with
  | nil =>
      cases ys with
      | nil => rfl
      | cons y ys =>
          have hmem : y ∈ ([] : List α) := (h y).mpr (List.mem_cons_self ..)
          cases hmem
  | cons x xs ih =>
      cases ys with
      | nil =>
          have hmem : x ∈ ([] : List α) := (h x).mp (List.mem_cons_self ..)
          cases hmem
      | cons y ys =>
          have hxs := (List.pairwise_cons.mp hx).1
          have hys := (List.pairwise_cons.mp hy).1
          have hxy : x = y := by
            cases (h x).mp (List.mem_cons_self ..) with
            | head => rfl
            | tail _ hx' =>
                cases (h y).mpr (List.mem_cons_self ..) with
                | head => rfl
                | tail _ hy' =>
                    exact absurd (Std.TransCmp.lt_trans (hxs y hy') (hys x hx'))
                      (compare_self_ne_lt x)
          subst hxy
          refine congrArg (x :: ·) (ih hx.tail hy.tail ?_)
          intro z
          have hz := h z
          simp only [List.mem_cons] at hz
          constructor
          · intro hzx
            have hne : z ≠ x := fun e => compare_self_ne_lt x (e ▸ hxs z hzx)
            exact (hz.mp (Or.inr hzx)).resolve_left hne
          · intro hzy
            have hne : z ≠ x := fun e => compare_self_ne_lt x (e ▸ hys z hzy)
            exact (hz.mpr (Or.inr hzy)).resolve_left hne

end Ascending

/-!
## Finite sets

Sets are built from `empty` by insertion, and their lists stay ascending by
construction.  So a set is determined by its members, and a union with members that are
there already changes nothing.
-/

/-- A finite set, listed in strictly ascending order. -/
structure OrderedSet (α : Type) [Ord α] where
  toList : List α
  ascending : Ascending.IsAscending toList
  deriving DecidableEq

namespace OrderedSet

variable {α : Type} [Ord α]

def empty : OrderedSet α :=
  ⟨[], List.Pairwise.nil⟩

def size (s : OrderedSet α) : Nat :=
  s.toList.length

def contains [BEq α] (s : OrderedSet α) (x : α) : Bool :=
  s.toList.contains x

theorem ext [Std.TransOrd α] {s t : OrderedSet α} (h : ∀ x, x ∈ s.toList ↔ x ∈ t.toList) : s = t := by
  rcases s with ⟨xs, hxs⟩
  rcases t with ⟨ys, hys⟩
  have hlist : xs = ys := hxs.ext hys h
  subst hlist
  rfl

variable [Std.TransOrd α] [Std.LawfulEqOrd α]

def insert (x : α) (s : OrderedSet α) : OrderedSet α :=
  ⟨Ascending.insert x s.toList, Ascending.isAscending_insert s.ascending⟩

def ofList (xs : List α) : OrderedSet α :=
  ⟨Ascending.ofList xs, Ascending.isAscending_ofList xs⟩

def union (s t : OrderedSet α) : OrderedSet α :=
  t.toList.foldl (fun acc x => acc.insert x) s

theorem mem_ofList {x : α} {xs : List α} : x ∈ (ofList xs).toList ↔ x ∈ xs :=
  Ascending.mem_ofList

theorem insert_of_mem {x : α} {s : OrderedSet α} (h : x ∈ s.toList) : s.insert x = s := by
  apply ext
  intro y
  show y ∈ Ascending.insert x s.toList ↔ y ∈ s.toList
  rw [Ascending.mem_insert]
  constructor
  · rintro (rfl | hy)
    · exact h
    · exact hy
  · exact Or.inr

theorem mem_union {x : α} {s t : OrderedSet α} :
    x ∈ (s.union t).toList ↔ x ∈ s.toList ∨ x ∈ t.toList := by
  have hfold : ∀ (xs : List α) (s : OrderedSet α),
      (xs.foldl (fun acc x => acc.insert x) s).toList =
        xs.foldl (fun acc x => Ascending.insert x acc) s.toList := by
    intro xs
    induction xs with
    | nil => exact fun _ => rfl
    | cons x xs ih => exact fun s => ih (s.insert x)
  rw [union, hfold, Ascending.mem_foldl_insert]

theorem union_eq_left {s t : OrderedSet α} (h : ∀ x ∈ t.toList, x ∈ s.toList) :
    s.union t = s := by
  have hfold : ∀ xs : List α, (∀ x ∈ xs, x ∈ s.toList) →
      xs.foldl (fun acc x => acc.insert x) s = s := by
    intro xs hxs
    induction xs with
    | nil => rfl
    | cons x xs ih =>
        rw [List.foldl_cons, insert_of_mem (hxs x List.mem_cons_self)]
        exact ih fun y hy => hxs y (List.mem_cons_of_mem x hy)
  exact hfold t.toList h

end OrderedSet

/-!
## Finite maps

Inserting an entry under a key that is there gives the key its new value, so of several
entries with one key the last one counts and every key is found under one value only.
`tally` counts how often each key comes in a list.
-/

/-- A finite map, listed in strictly ascending order of its keys. -/
structure OrderedMap (κ ν : Type) [Ord κ] where
  entries : List (κ × ν)
  ascending : Ascending.IsAscending (entries.map Prod.fst)
  deriving DecidableEq

namespace OrderedMap

variable {κ ν : Type} [Ord κ]

def insertEntry (key : κ) (value : ν) : List (κ × ν) → List (κ × ν)
  | [] => [(key, value)]
  | (k, v) :: rest =>
      match compare key k with
      | .lt => (key, value) :: (k, v) :: rest
      | .eq => (k, value) :: rest
      | .gt => (k, v) :: insertEntry key value rest

theorem map_fst_insertEntry (key : κ) (value : ν) (entries : List (κ × ν)) :
    (insertEntry key value entries).map Prod.fst =
      Ascending.insert key (entries.map Prod.fst) := by
  induction entries with
  | nil => rfl
  | cons entry rest ih =>
      simp only [insertEntry, List.map_cons, Ascending.insert]
      split <;> simp_all

def empty : OrderedMap κ ν :=
  ⟨[], List.Pairwise.nil⟩

def get? [BEq κ] (m : OrderedMap κ ν) (key : κ) : Option ν :=
  m.entries.lookup key

def getD [BEq κ] (m : OrderedMap κ ν) (key : κ) (default : ν) : ν :=
  (m.get? key).getD default

def keys (m : OrderedMap κ ν) : List κ :=
  m.entries.map Prod.fst

theorem get?_of_mem [Std.ReflOrd κ] [BEq κ] [LawfulBEq κ] {m : OrderedMap κ ν} {key : κ}
    {value : ν} (h : (key, value) ∈ m.entries) : m.get? key = some value := by
  rcases List.append_of_mem h with ⟨before, after, hentries⟩
  rw [get?, List.lookup_eq_some_iff]
  refine ⟨before, after, hentries, ?_⟩
  intro entry hentry
  have hnodup := m.ascending.nodup
  rw [hentries, List.map_append, List.nodup_append] at hnodup
  have hne := hnodup.2.2 entry.1 (List.mem_map_of_mem hentry) key (by simp)
  simpa using hne.symm

variable [Std.TransOrd κ] [Std.LawfulEqOrd κ]

def insert (key : κ) (value : ν) (m : OrderedMap κ ν) : OrderedMap κ ν :=
  ⟨insertEntry key value m.entries, by
    rw [map_fst_insertEntry]
    exact Ascending.isAscending_insert m.ascending⟩

def ofList (entries : List (κ × ν)) : OrderedMap κ ν :=
  entries.foldl (fun m entry => m.insert entry.1 entry.2) empty

def tally [BEq κ] (keys : List κ) : OrderedMap κ Nat :=
  keys.foldl (fun m key => m.insert key (m.getD key 0 + 1)) empty

theorem mem_keys_insert {key key' : κ} {value : ν} {m : OrderedMap κ ν} :
    key' ∈ (m.insert key value).keys ↔ key' = key ∨ key' ∈ m.keys := by
  show key' ∈ (insertEntry key value m.entries).map Prod.fst ↔ _
  rw [map_fst_insertEntry, Ascending.mem_insert]
  rfl

theorem lookup_insertEntry [BEq κ] [LawfulBEq κ] (key key' : κ) (value : ν)
    (entries : List (κ × ν)) :
    (insertEntry key value entries).lookup key' =
      if key' == key then some value else entries.lookup key' := by
  induction entries with
  | nil =>
      rw [insertEntry, List.lookup_cons, List.lookup_nil]
      split <;> simp_all
  | cons entry rest ih =>
      rw [insertEntry, List.lookup_cons]
      split
      · rw [List.lookup_cons, List.lookup_cons]
        split <;> simp_all
      · rename_i heq
        have hkey : key = entry.1 := Std.LawfulEqOrd.eq_of_compare heq
        rw [List.lookup_cons, hkey]
        split <;> simp_all
      · rename_i hgt
        have hne : key ≠ entry.1 := by
          rintro rfl
          have hself : compare entry.1 entry.1 = .eq := Std.ReflCmp.compare_self
          rw [hself] at hgt
          cases hgt
        rw [List.lookup_cons, ih]
        grind

theorem getD_insert [BEq κ] [LawfulBEq κ] (key key' : κ) (value default : ν)
    (m : OrderedMap κ ν) :
    (m.insert key value).getD key' default =
      if key' == key then value else m.getD key' default := by
  show ((insertEntry key value m.entries).lookup key').getD default = _
  rw [lookup_insertEntry]
  split
  · rfl
  · rfl

theorem getD_tally [BEq κ] [LawfulBEq κ] (key : κ) (keys : List κ) :
    (tally keys).getD key 0 = keys.count key := by
  have hfold : ∀ (keys : List κ) (m : OrderedMap κ Nat),
      (keys.foldl (fun m key => m.insert key (m.getD key 0 + 1)) m).getD key 0 =
        m.getD key 0 + keys.count key := by
    intro keys
    induction keys with
    | nil => exact fun _ => rfl
    | cons first rest ih =>
        intro m
        rw [List.foldl_cons, ih, getD_insert, List.count_cons]
        grind
  rw [tally, hfold]
  exact Nat.zero_add _

theorem mem_keys_tally [BEq κ] {key : κ} {keys : List κ} :
    key ∈ (tally keys).keys ↔ key ∈ keys := by
  have hfold : ∀ (keys : List κ) (m : OrderedMap κ Nat),
      key ∈ (keys.foldl (fun m key => m.insert key (m.getD key 0 + 1)) m).keys ↔
        key ∈ m.keys ∨ key ∈ keys := by
    intro keys
    induction keys with
    | nil => simp
    | cons first rest ih =>
        intro m
        rw [List.foldl_cons, ih, mem_keys_insert, List.mem_cons]
        constructor
        · rintro ((h | h) | h)
          · exact Or.inr (Or.inl h)
          · exact Or.inl h
          · exact Or.inr (Or.inr h)
        · rintro (h | h | h)
          · exact Or.inl (Or.inr h)
          · exact Or.inl (Or.inl h)
          · exact Or.inr h
  rw [tally, hfold]
  simp [empty, OrderedMap.keys]

end OrderedMap

end LinearTemporal
