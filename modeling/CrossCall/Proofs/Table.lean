import Mathlib
import CrossCall.Table

/-! Tables without repeated keys, where the listing and the look-up say the same. -/
namespace CrossCall.Table

variable {κ ν : Type} [DecidableEq κ] {t : Table κ ν} {k k' : κ} {v : ν}

/-- No key stands twice in the listing. -/
def Distinct (t : Table κ ν) : Prop := t.keys.Nodup

theorem keys_insert (t : Table κ ν) (k : κ) (v : ν) :
    (t.insert k v).keys = insertName t.keys k := by
  obtain ⟨xs⟩ := t
  simp only [keys, Table.insert]
  induction xs with
  | nil => rfl
  | cons e rest ih =>
    unfold put
    by_cases he : e.1 = k
    · simp [insertName, he]
    · rw [if_neg he, List.map_cons, ih, insertName, insertName, List.map_cons]
      by_cases hk : k ∈ rest.map (·.1)
      · simp [hk]
      · simp [hk, Ne.symm he]

/-- An insertion adds one entry, in place of any other with that key. -/
theorem mem_entries_insert {e : κ × ν} (h : e ∈ (t.insert k v).entries) :
    e = (k, v) ∨ e ∈ t.entries := by
  obtain ⟨xs⟩ := t
  simp only [Table.insert] at h ⊢
  induction xs with
  | nil => exact .inl (List.mem_singleton.mp h)
  | cons e' rest ih =>
    unfold put at h
    split at h
    · rename_i hk
      rcases List.mem_cons.mp h with rfl | h
      · exact .inl (by rw [hk])
      · exact .inr (List.mem_cons_of_mem _ h)
    · rcases List.mem_cons.mp h with rfl | h
      · exact .inr List.mem_cons_self
      · exact (ih h).imp_right (List.mem_cons_of_mem _)

theorem mem_values_insert {u : ν} (h : u ∈ (t.insert k v).values) : u = v ∨ u ∈ t.values := by
  obtain ⟨e, he, rfl⟩ := List.mem_map.mp h
  rcases mem_entries_insert he with rfl | he
  · exact .inl rfl
  · exact .inr (List.mem_map_of_mem he)

theorem mem_entries_of_get? (h : t.get? k = some v) : (k, v) ∈ t.entries := by
  obtain ⟨xs⟩ := t
  simp only [get?] at h ⊢
  induction xs with
  | nil => cases h
  | cons e rest ih =>
    unfold find at h
    split at h
    · rename_i hk
      cases h
      rw [← hk]
      exact List.mem_cons_self
    · exact List.mem_cons_of_mem _ (ih h)

theorem distinct_empty {α β : Type} : (empty : Table α β).Distinct := List.nodup_nil

theorem Distinct.insert (h : t.Distinct) (k : κ) (v : ν) : (t.insert k v).Distinct := by
  obtain ⟨xs⟩ := t
  simp only [Distinct, keys, Table.insert] at h ⊢
  induction xs with
  | nil => simp [put]
  | cons e rest ih =>
    obtain ⟨hne, hrest⟩ := List.nodup_cons.mp h
    unfold put
    split
    · exact List.nodup_cons.mpr ⟨hne, hrest⟩
    · rename_i hk
      refine List.nodup_cons.mpr ⟨?_, ih hrest⟩
      rw [mem_keys_put]
      rintro (he | hm)
      · exact hk he
      · exact hne hm

theorem mem_entries_iff (h : t.Distinct) : (k, v) ∈ t.entries ↔ t.get? k = some v := by
  obtain ⟨xs⟩ := t
  simp only [Distinct, keys, get?] at h ⊢
  induction xs with
  | nil => simp [find]
  | cons e rest ih =>
    obtain ⟨k₀, v₀⟩ := e
    obtain ⟨hne, hrest⟩ := List.nodup_cons.mp h
    rw [List.mem_cons, ih hrest, find]
    by_cases hk : k₀ = k
    · subst hk
      have hnone : ¬ find k₀ rest = some v := by
        intro hf
        exact hne (List.mem_map.mpr ⟨_, (ih hrest).mpr hf, rfl⟩)
      simp [hnone, eq_comm]
    · simp [hk, Ne.symm hk]

/-- The listing can be told from the keys and the look-up. -/
theorem Distinct.entries_eq (h : t.Distinct) (d : ν) :
    t.entries = t.keys.map fun k => (k, t.getD k d) := by
  rw [keys, List.map_map]
  conv_lhs => rw [← List.map_id t.entries]
  refine List.map_congr_left fun e he => ?_
  have hget : t.get? e.1 = some e.2 := (mem_entries_iff h).mp he
  simp [getD, hget]

theorem getD_alter (t : Table κ ν) (k k' : κ) (v : ν) (f : ν → ν) :
    (t.alter k v f).getD k' v = if k' = k then f (t.getD k v) else t.getD k' v := by
  unfold alter
  rw [getD, get?_insert]
  split <;> rfl

theorem Distinct.alter (h : t.Distinct) (k : κ) (v : ν) (f : ν → ν) : (t.alter k v f).Distinct :=
  h.insert _ _

/-- A key stands for the last entry that has it. -/
theorem get?_ofList (xs : List (κ × ν)) (k : κ) :
    (ofList xs).get? k = ((xs.filter fun e => e.1 = k).getLast?).map (·.2) := by
  induction xs using List.reverseRecOn with
  | nil => rfl
  | append_singleton xs e ih =>
    have hlast : ofList (xs ++ [e]) = (ofList xs).insert e.1 e.2 := by simp [ofList]
    rw [hlast, get?_insert, ih, List.filter_append]
    by_cases he : e.1 = k
    · simp [he]
    · simp [he, Ne.symm he]

theorem put_new {xs : List (κ × ν)} (h : k ∉ xs.map (·.1)) : put k v xs = xs ++ [(k, v)] := by
  induction xs with
  | nil => rfl
  | cons e rest ih =>
    rw [List.map_cons, List.mem_cons, not_or] at h
    rw [put, if_neg (Ne.symm h.1), ih h.2, List.cons_append]

/-- Entries with keys of their own stay as they are. -/
theorem entries_ofList {xs : List (κ × ν)} (h : (xs.map (·.1)).Nodup) :
    (ofList xs).entries = xs := by
  induction xs using List.reverseRecOn with
  | nil => rfl
  | append_singleton xs e ih =>
    rw [List.map_append, List.nodup_append'] at h
    have hlast : ofList (xs ++ [e]) = (ofList xs).insert e.1 e.2 := by simp [ofList]
    have hnew : e.1 ∉ xs.map (·.1) := fun he => h.2.2 he List.mem_cons_self
    rw [hlast, Table.insert, ih h.1, put_new hnew]

/-! ### Lists collected under keys -/

section

variable {α : Type} {t : Table κ (List α)}

theorem getD_collect (xs : List (κ × α)) (t : Table κ (List α)) (k : κ) :
    (xs.foldl (fun t a => t.alter a.1 [] (· ++ [a.2])) t).getD k [] =
      t.getD k [] ++ xs.filterMap fun a => if a.1 = k then some a.2 else none := by
  induction xs generalizing t with
  | nil => simp
  | cons a rest ih =>
    rw [List.foldl_cons, ih, getD_alter]
    by_cases ha : a.1 = k
    · subst ha
      simp
    · simp [ha, Ne.symm ha]

theorem Distinct.collect (h : t.Distinct) (xs : List (κ × α)) :
    (xs.foldl (fun t a => t.alter a.1 [] (· ++ [a.2])) t).Distinct := by
  induction xs generalizing t with
  | nil => exact h
  | cons a rest ih => exact ih (h.alter _ _ _)

theorem values_alter_perm (t : Table κ (List α)) (k : κ) (x : α) :
    (t.alter k [] (· ++ [x])).values.flatten.Perm (t.values.flatten ++ [x]) := by
  obtain ⟨xs⟩ := t
  simp only [alter, Table.insert, values, getD, get?]
  induction xs with
  | nil => simp [put, find]
  | cons e rest ih =>
    by_cases he : e.1 = k
    · simp only [put, find, he, if_true, List.map_cons, List.flatten_cons, Option.getD_some,
        List.append_assoc]
      exact List.perm_append_comm.append_left e.2
    · simp only [put, find, he, if_false, List.map_cons, List.flatten_cons, List.append_assoc]
      exact ih.append_left e.2

/-- Nothing that is collected is lost or doubled, only put in another order. -/
theorem values_collect_perm (xs : List (κ × α)) :
    (xs.foldl (fun t a => t.alter a.1 [] (· ++ [a.2]))
      (empty : Table κ (List α))).values.flatten.Perm (xs.map (·.2)) := by
  induction xs using List.reverseRecOn with
  | nil => exact .refl _
  | append_singleton xs a ih =>
    rw [List.foldl_concat, List.map_append]
    exact (values_alter_perm _ _ _).trans (ih.append_right _)

end

end CrossCall.Table

namespace CrossCall

/-! ### Names, each once -/

variable {α : Type} [DecidableEq α]

/-- Names that are put in one after the other stand in the order in which they first came. -/
theorem unionNames_nil (xs : List α) : unionNames [] xs = xs.eraseDups := by
  induction xs using List.reverseRecOn with
  | nil => rfl
  | append_singleton xs x ih =>
    have hlast : unionNames [] (xs ++ [x]) = insertName (unionNames [] xs) x := by simp [unionNames]
    rw [hlast, ih, List.eraseDups_append, insertName]
    by_cases hx : x ∈ xs
    · simp [hx, List.removeAll]
    · simp [hx, List.removeAll, List.eraseDups_cons]

theorem nodup_eraseDups (xs : List α) : xs.eraseDups.Nodup := by
  rw [← unionNames_nil]
  induction xs using List.reverseRecOn with
  | nil => exact List.nodup_nil
  | append_singleton xs x ih =>
    rw [unionNames, List.foldl_append]
    exact nodup_insertName ih

end CrossCall
