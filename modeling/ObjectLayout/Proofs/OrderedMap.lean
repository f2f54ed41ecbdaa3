import ObjectLayout.OrderedMap
import ObjectLayout.Proofs.Outcome

/-! What a map holds: as pairs in a list, and after values have been changed and keys added. -/
namespace ObjectLayout

theorem mapM_eq_ok {step : α → Checked β} {f : α → β} (plain : ∀ x y, step x = .ok y → y = f x)
    {xs : List α} {ys : List β} (done : xs.mapM step = .ok ys) : ys = xs.map f := by
  induction xs generalizing ys with
  | nil =>
    cases done
    rfl
  | cons x rest ih =>
    rw [List.mapM_cons] at done
    obtain ⟨y, first, done⟩ := except_bind_eq_ok.mp done
    obtain ⟨ys', later, done⟩ := except_bind_eq_ok.mp done
    cases done
    rw [plain x y first, ih later, List.map_cons]

namespace OrderedMap

variable {κ α β : Type}

theorem mapValuesM_eq_ok {step : α → Checked β} {f : α → β} (plain : ∀ x y, step x = .ok y → y = f x)
    {map : OrderedMap κ α} {map' : OrderedMap κ β} (done : map.mapValuesM step = .ok map') :
    map' = map.mapValues f := by
  obtain ⟨entries, mapped, done⟩ := except_bind_eq_ok.mp done
  cases done
  refine congrArg _ (mapM_eq_ok (fun entry result step => ?_) mapped)
  obtain ⟨value, found, step⟩ := except_bind_eq_ok.mp step
  cases step
  rw [plain _ _ found]

theorem find?_mapValues [DecidableEq κ] (map : OrderedMap κ α) (f : α → β) (key : κ) :
    (map.mapValues f).find? key = (map.find? key).map f := by
  obtain ⟨entries⟩ := map
  simp only [mapValues, find?]
  induction entries with
  | nil => rfl
  | cons entry rest ih =>
    rw [List.map_cons, List.lookup_cons, List.lookup_cons]
    split <;> simp_all

@[simp] theorem keys_mapValues (map : OrderedMap κ α) (f : α → β) :
    (map.mapValues f).keys = map.keys := by
  simp [mapValues, keys]

variable [DecidableEq κ] {map map' map'' : OrderedMap κ α} {key other : κ} {value : α}

theorem mem_of_find? (found : map.find? key = some value) : (key, value) ∈ map.entries := by
  obtain ⟨before, after, same, _⟩ := List.lookup_eq_some_iff.mp found
  rw [same]
  simp

theorem find?_of_mem (distinct : map.keys.Nodup) (member : (key, value) ∈ map.entries) :
    map.find? key = some value := by
  obtain ⟨before, after, same⟩ := List.append_of_mem member
  refine List.lookup_eq_some_iff.mpr ⟨before, after, same, fun entry earlier => ?_⟩
  simp only [keys, same, List.map_append, List.map_cons] at distinct
  have apart := (List.nodup_append.mp distinct).2.2 entry.1 (List.mem_map_of_mem earlier) key
    List.mem_cons_self
  simpa using fun h => apart h.symm

theorem find?_iff (distinct : map.keys.Nodup) :
    map.find? key = some value ↔ (key, value) ∈ map.entries :=
  ⟨mem_of_find?, find?_of_mem distinct⟩

theorem contains_iff : map.contains key = true ↔ key ∈ map.keys := by
  unfold contains
  constructor
  · intro some
    obtain ⟨value, found⟩ := Option.isSome_iff_exists.mp some
    exact List.mem_map.mpr ⟨_, mem_of_find? found, rfl⟩
  · intro member
    rw [Option.isSome_iff_ne_none]
    intro none
    obtain ⟨entry, there, same⟩ := List.mem_map.mp member
    have differs := List.lookup_eq_none_iff.mp none entry there
    simp [same] at differs

theorem entries_insert (fresh : key ∉ map.keys) :
    (map.insert key value).entries = map.entries ++ [(key, value)] := by
  obtain ⟨entries⟩ := map
  simp only [insert, keys] at *
  induction entries with
  | nil => simp [insertInto]
  | cons entry rest ih =>
    obtain ⟨k, v⟩ := entry
    simp only [List.map_cons, List.mem_cons, not_or] at fresh
    have differs : ¬ k = key := fun h => fresh.1 h.symm
    simp [insertInto, differs, ih fresh.2]

theorem contains_insert_self (map : OrderedMap κ α) (key : κ) (value : α) :
    (map.insert key value).contains key = true := by
  rw [contains, find?_insert_self]
  rfl

theorem contains_insert (value : α) (known : map.contains other = true) :
    (map.insert key value).contains other = true := by
  by_cases same : other = key
  · rw [same]
    exact map.contains_insert_self key value
  · rwa [contains, find?_insert_of_ne _ _ same]

theorem contains_insert_iff (value : α) :
    (map.insert key value).contains other = true ↔ other = key ∨ map.contains other = true := by
  by_cases same : other = key
  · rw [same]
    exact ⟨fun _ => .inl rfl, fun _ => map.contains_insert_self key value⟩
  · rw [contains, find?_insert_of_ne _ _ same]
    exact ⟨.inr, fun known => known.resolve_left same⟩

/-- Whatever the first map holds under a key, the second holds too. -/
def Extends (map map' : OrderedMap κ α) : Prop :=
  ∀ key value, map.find? key = some value → map'.find? key = some value

theorem Extends.refl (map : OrderedMap κ α) : map.Extends map := fun _ _ => id

theorem Extends.trans (h : map.Extends map') (h' : map'.Extends map'') : map.Extends map'' :=
  fun key value found => h' key value (h key value found)

theorem Extends.contained (h : map.Extends map') (known : map.contains key = true) :
    map'.contains key = true := by
  obtain ⟨value, found⟩ := Option.isSome_iff_exists.mp known
  exact Option.isSome_iff_exists.mpr ⟨value, h key value found⟩

theorem Extends.insert (free : map.contains key = false) (value : α) :
    map.Extends (map.insert key value) := by
  intro other value' found
  rw [find?_insert_of_ne _ _ ?ne]
  · exact found
  · rintro rfl
    rw [contains, found] at free
    cases free

/-- A map from positions holds at each position what the list has there. -/
theorem find?_ofList_zipIdx (xs : List α) (index : Nat) :
    (ofList (xs.zipIdx.map fun (x, index) => (index, x))).find? index = xs[index]? := by
  suffices general : ∀ (start : Nat) (map : OrderedMap Nat α),
      (((xs.zipIdx start).map fun (x, index) => (index, x)).foldl
        (fun map (key, value) => map.insert key value) map).find? index =
          if start ≤ index ∧ index < start + xs.length then xs[index - start]?
          else map.find? index by
    have whole := general 0 empty
    simp only [Nat.zero_le, true_and, Nat.zero_add, Nat.sub_zero] at whole
    rw [ofList, whole]
    split
    · rfl
    · rename_i past
      rw [List.getElem?_eq_none (Nat.le_of_not_lt past)]
      rfl
  induction xs with
  | nil =>
    intro start map
    rw [if_neg (by simp only [List.length_nil]; omega)]
    rfl
  | cons x rest ih =>
    intro start map
    rw [List.zipIdx_cons, List.map_cons, List.foldl_cons, ih, List.length_cons]
    by_cases first : index = start
    · subst index
      rw [if_neg (by omega), if_pos (by omega), find?_insert_self, Nat.sub_self]
      rfl
    · rw [find?_insert_of_ne _ _ first]
      by_cases within : start ≤ index ∧ index < start + (rest.length + 1)
      · have later : index - start = index - (start + 1) + 1 := by omega
        rw [if_pos (by omega), if_pos within, later, List.getElem?_cons_succ]
      · rw [if_neg (by omega), if_neg within]

end OrderedMap

end ObjectLayout
