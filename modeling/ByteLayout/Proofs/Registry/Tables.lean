import ByteLayout.Proofs.Registry.Meaning
import Mathlib.Data.List.Induction

/-!
# Tables as finite maps

A table is known by what it has for each name: `ext_iff_get` says so, because
the places of a table are those of the names in their declaration.  Every law of
tables is then a law about one name, and `get_derive_eq` is the one from which
the others come: a derived table has for a name what the last pair for it gives,
or else what was there before.

A table can be taken apart into its pairs, in declaration order, and put
together again from them in any order.
-/

namespace ByteLayout

namespace TypeName

/-- **Declaration order is the order of places.** -/
theorem index_getElem_all : ∀ (i : Nat) (h : i < all.length), all[i].index.val = i := by
  decide

theorem pairwise_index_all : all.Pairwise fun m n => m.index < n.index := by decide

end TypeName

namespace TypeTable

variable {t : TypeTable}

/-! ### One name at a time -/

theorem slots_toList (t : TypeTable) : t.slots.toList = TypeName.all.map t.get := by
  apply List.ext_getElem
  · rw [Vector.length_toList, List.length_map, TypeName.length_all]
  · intro i h h'
    have hi : i < TypeName.all.length := by rwa [List.length_map] at h'
    rw [List.getElem_map, Vector.getElem_toList, get]
    simp only [Fin.getElem_fin, TypeName.index_getElem_all i hi]

/-- **Tables with the same type for every name are the same.** -/
theorem ext_iff_get {u : TypeTable} : t = u ↔ ∀ n, t.get n = u.get n := by
  refine ⟨fun h _ => h ▸ rfl, ?_⟩
  intro h
  have hslots : t.slots.toList = u.slots.toList := by
    rw [slots_toList, slots_toList, funext h]
  cases t
  cases u
  exact congrArg mk (Vector.toList_inj.mp hslots)

/-- The type that the last pair for a name has, if there is one. -/
def lastFor (n : TypeName) (entries : List (TypeName × Scalar)) : Option Scalar :=
  (entries.filter fun e => e.1 = n).getLast?.map Prod.snd

/-- **A name has the type of the last pair for it**, or else the one it had before. -/
theorem get_derive_eq (t : TypeTable) (entries : List (TypeName × Scalar)) (n : TypeName) :
    (t.derive entries).get n = (lastFor n entries).or (t.get n) := by
  induction entries using List.reverseRecOn with
  | nil => rfl
  | append_singleton entries e ih =>
    have hd : t.derive (entries ++ [e]) = (t.derive entries).insert e.1 e.2 := List.foldl_append ..
    rw [hd, get_insert, ih, lastFor, lastFor, List.filter_append]
    by_cases hn : e.1 = n
    · simp [hn]
    · simp [hn]

/-! ### Deriving -/

theorem derive_derive (t : TypeTable) (xs ys : List (TypeName × Scalar)) :
    (t.derive xs).derive ys = t.derive (xs ++ ys) :=
  (List.foldl_append ..).symm

theorem derive_self (t : TypeTable) (xs : List (TypeName × Scalar)) :
    (t.derive xs).derive xs = t.derive xs := by
  rw [ext_iff_get]
  intro n
  rw [get_derive_eq, get_derive_eq]
  cases lastFor n xs <;> rfl

theorem insert_comm (t : TypeTable) {m n : TypeName} (h : m ≠ n) (a b : Scalar) :
    (t.insert m a).insert n b = (t.insert n b).insert m a := by
  rw [ext_iff_get]
  intro k
  simp only [get_insert]
  by_cases hn : n = k
  · rw [if_pos hn, if_neg (hn ▸ h), if_pos hn]
  · rw [if_neg hn, if_neg hn]

/-- **Pairs for distinct names may come in any order.** -/
theorem derive_perm {xs ys : List (TypeName × Scalar)} (h : xs.Perm ys) :
    ∀ t : TypeTable, (xs.map Prod.fst).Nodup → t.derive xs = t.derive ys := by
  induction h with
  | nil => intro t _; rfl
  | cons e _ ih =>
    intro t hn
    exact ih (t.insert e.1 e.2) (List.nodup_cons.mp hn).2
  | swap a b rest =>
    intro t hn
    have hne : b.1 ≠ a.1 := fun he => (List.nodup_cons.mp hn).1 (he ▸ List.mem_cons_self)
    exact congrArg (derive · rest) (t.insert_comm hne b.2 a.2)
  | trans hxy _ ih ih' =>
    intro t hn
    exact (ih t hn).trans (ih' t ((hxy.map Prod.fst).nodup_iff.mp hn))

/-! ### The pairs of a table -/

theorem mem_toList_iff {n : TypeName} {s : Scalar} : (n, s) ∈ t.toList ↔ t.get n = some s := by
  rw [toList, List.mem_filterMap]
  constructor
  · rintro ⟨m, -, hm⟩
    obtain ⟨u, hu, he⟩ := Option.map_eq_some_iff.mp hm
    obtain ⟨rfl, rfl⟩ := Prod.mk.inj he
    exact hu
  · intro h
    exact ⟨n, TypeName.mem_all n, by rw [h]; rfl⟩

theorem map_fst_toList (t : TypeTable) :
    t.toList.map Prod.fst = TypeName.all.filter t.contains := by
  rw [toList, List.map_filterMap, ← List.filterMap_eq_filter]
  congr 1
  funext n
  rw [Option.guard, contains]
  cases t.get n <;> rfl

/-- **The pairs come in declaration order**, one for each name that has a type. -/
theorem pairwise_toList (t : TypeTable) :
    (t.toList.map Prod.fst).Pairwise fun m n => m.index < n.index := by
  rw [map_fst_toList]
  exact TypeName.pairwise_index_all.filter _

theorem size_eq (t : TypeTable) : t.size = t.toList.length := by
  have hl : t.toList.length = (TypeName.all.filter t.contains).length := by
    rw [← map_fst_toList, List.length_map]
  rw [hl, size, slots_toList, List.filter_map, List.length_map]
  rfl

/-- **A table is made of its pairs.** -/
theorem ofList_toList (t : TypeTable) : ofList t.toList = t := by
  rw [ext_iff_get]
  intro n
  have h := get_derive_filterMap t.get n TypeName.all empty
  rw [if_pos (TypeName.mem_all n), get_empty, Option.or_none] at h
  exact h

/-! ### All laws together -/

/-- **Tables are finite maps in which the last pair for a name wins.**  Deriving one from another
makes it the map with the pairs put in one after the other; the pairs of a table are those of the
map, in declaration order; and a table is nothing but the map. -/
theorem finite_map (t : TypeTable) :
    (∀ (es : List (TypeName × Scalar)) (n : TypeName),
      (t.derive es).get n = ((es.filter fun e => e.1 = n).getLast?.map Prod.snd).or (t.get n)) ∧
    (∀ xs ys : List (TypeName × Scalar), (t.derive xs).derive ys = t.derive (xs ++ ys)) ∧
    (∀ xs : List (TypeName × Scalar), (t.derive xs).derive xs = t.derive xs) ∧
    (∀ xs ys : List (TypeName × Scalar), xs.Perm ys → (xs.map Prod.fst).Nodup →
      t.derive xs = t.derive ys) ∧
    ((t.toList.map Prod.fst).Pairwise (fun m n => m.index < n.index) ∧
      ∀ n s, (n, s) ∈ t.toList ↔ t.get n = some s) ∧
    t.size = t.toList.length ∧
    ofList t.toList = t ∧
    ∀ u : TypeTable, t = u ↔ ∀ n, t.get n = u.get n :=
  ⟨t.get_derive_eq, t.derive_derive, t.derive_self, fun _ _ h hn => derive_perm h t hn,
    ⟨t.pairwise_toList, fun _ _ => mem_toList_iff⟩, t.size_eq, t.ofList_toList,
    fun _ => ext_iff_get⟩

/-- A name that is given two types over the one in the base has the second, the name beside it is as
before, and two pairs for different names may change places. -/
theorem finite_map_overridden :
    let wide : Scalar := ⟨.int64, .bigEndian⟩
    let narrow : Scalar := ⟨.int16, .bigEndian⟩
    let t := base .bigEndian
    (t.derive [(.int, wide), (.long, wide), (.int, narrow)]).get .int = some narrow ∧
      (t.derive [(.int, wide), (.long, wide), (.int, narrow)]).get .uint =
        some ⟨.uint32, .bigEndian⟩ ∧
      t.derive [(.int, wide), (.long, narrow)] = t.derive [(.long, narrow), (.int, wide)] := by
  intro wide narrow t
  obtain ⟨hget, -, -, hperm, -⟩ := finite_map t
  refine ⟨?_, ?_, ?_⟩
  · rw [hget]
    rfl
  · rw [hget]
    exact get_base .bigEndian .uint
  · exact hperm _ _ (.swap ..) (by decide)

end TypeTable

end ByteLayout
