/-
# StackScript.Proofs.Entries — laws of key-sorted entries

Looking up sees exactly the last value put under a key. A replacement changes the
entry under its key and no other. Where the keys ascend, an insertion under a key that
is there is a replacement, and one under a key above all others adds it at the end.
-/
import Mathlib.Data.String.Basic
import StackScript.Value.Basic

namespace StackScript.Entries

set_option autoImplicit false

variable {α : Type} {key other : String} {value old : α} {entries : List (String × α)}

/-- The keys come in ascending order, each once. -/
def Ascending (entries : List (String × α)) : Prop :=
  entries.Pairwise fun first second => first.1 < second.1

theorem mem_of_find? (found : find? key entries = some value) : (key, value) ∈ entries := by
  induction entries with
  | nil => simp [find?] at found
  | cons entry rest ih =>
    simp only [find?] at found
    split at found
    · rename_i same
      cases found
      simp [← same]
    · exact List.mem_cons_of_mem _ (ih found)

theorem find?_insert (key other : String) (value : α) (entries : List (String × α)) :
    find? other (insert key value entries) =
      if key = other then some value else find? other entries := by
  induction entries with
  | nil => simp [insert, find?]
  | cons entry rest ih =>
    obtain ⟨k, old⟩ := entry
    simp only [insert]
    by_cases same : k = key
    · subst same
      by_cases hit : k = other <;> simp [find?, hit]
    · by_cases below : key < k
      · simp [same, below, find?]
      · by_cases hit : k = other
        · subst hit
          simp [same, below, find?, Ne.symm same]
        · simp [same, below, find?, hit, ih]

@[simp] theorem find?_insert_self (key : String) (value : α) (entries : List (String × α)) :
    find? key (insert key value entries) = some value := by
  simp [find?_insert]

/-- An entry after an insertion is the new one, or was there before. -/
theorem mem_insert {entry : String × α} (member : entry ∈ insert key value entries) :
    entry = (key, value) ∨ entry ∈ entries := by
  induction entries with
  | nil => exact .inl (by simpa [insert] using member)
  | cons first rest ih =>
    simp only [insert] at member
    split at member
    · rcases List.mem_cons.mp member with new | kept
      · exact .inl new
      · exact .inr (List.mem_cons_of_mem _ kept)
    · split at member
      · rcases List.mem_cons.mp member with new | kept
        · exact .inl new
        · exact .inr kept
      · rcases List.mem_cons.mp member with kept | later
        · exact .inr (kept ▸ List.mem_cons_self)
        · exact (ih later).imp_right (List.mem_cons_of_mem _)

/-- The keys after an insertion. -/
theorem mem_keys_insert :
    other ∈ (insert key value entries).map Prod.fst ↔
      other = key ∨ other ∈ entries.map Prod.fst := by
  induction entries with
  | nil => simp [insert]
  | cons entry rest ih =>
    obtain ⟨k, old⟩ := entry
    by_cases same : k = key
    · subst same
      simp [insert]
    · by_cases below : key < k
      · simp [insert, same, below]
      · simp only [insert, same, below, if_false, List.map_cons, List.mem_cons, ih]
        exact or_left_comm

/-- A replacement changes one entry, the first under its key. -/
theorem replace_eq (found : find? key entries = some old) (value : α) :
    ∃ before after, entries = before ++ (key, old) :: after ∧ find? key before = none ∧
      replace key value entries = before ++ (key, value) :: after := by
  induction entries with
  | nil => simp [find?] at found
  | cons entry rest ih =>
    obtain ⟨k, first⟩ := entry
    by_cases same : k = key
    · subst same
      obtain rfl : first = old := by simpa [find?] using found
      exact ⟨[], rest, rfl, rfl, by simp [replace]⟩
    · have later : find? key rest = some old := by simpa [find?, same] using found
      obtain ⟨before, after, split, absent, replaced⟩ := ih later
      refine ⟨(k, first) :: before, after, by simp [split], ?_, ?_⟩
      · simpa [find?, same] using absent
      · simp [replace, same, replaced]

theorem replace_self (found : find? key entries = some value) :
    replace key value entries = entries := by
  obtain ⟨before, after, rfl, _, replaced⟩ := replace_eq found value
  exact replaced

theorem find?_replace (found : find? key entries = some old) (other : String) (value : α) :
    find? other (replace key value entries) =
      if key = other then some value else find? other entries := by
  induction entries with
  | nil => cases found
  | cons entry rest ih =>
    obtain ⟨k, first⟩ := entry
    by_cases same : k = key
    · subst same
      by_cases hit : k = other <;> simp [replace, find?, hit]
    · have later : find? key rest = some old := by simpa [find?, same] using found
      by_cases hit : k = other
      · subst hit
        simp [replace, find?, same, Ne.symm same]
      · simp [replace, find?, same, hit, ih later]

/-- A replacement keeps the keys. -/
theorem keys_replace (key : String) (value : α) (entries : List (String × α)) :
    (replace key value entries).map Prod.fst = entries.map Prod.fst := by
  induction entries with
  | nil => rfl
  | cons entry rest ih =>
    obtain ⟨k, first⟩ := entry
    by_cases same : k = key <;> simp [replace, same, ih]

theorem mem_replace {entry : String × α} (member : entry ∈ replace key value entries) :
    entry = (key, value) ∨ entry ∈ entries := by
  induction entries with
  | nil => cases member
  | cons first rest ih =>
    simp only [replace] at member
    split at member
    · rcases List.mem_cons.mp member with new | kept
      · exact .inl new
      · exact .inr (List.mem_cons_of_mem _ kept)
    · rcases List.mem_cons.mp member with kept | later
      · exact .inr (kept ▸ List.mem_cons_self)
      · exact (ih later).imp_right (List.mem_cons_of_mem _)

/-- A property of entries that insertion keeps holds of entries made from a list. -/
theorem ofList_induction {motive : List (String × α) → Prop} {pairs : List (String × α)}
    (nil : motive [])
    (insert : ∀ pair ∈ pairs, ∀ entries, motive entries → motive (insert pair.1 pair.2 entries)) :
    motive (ofList pairs) := by
  unfold ofList
  generalize ([] : List (String × α)) = found at nil
  induction pairs generalizing found with
  | nil => exact nil
  | cons pair pairs ih =>
    apply ih
    · intro other member
      exact insert other (List.mem_cons_of_mem _ member)
    · exact insert pair List.mem_cons_self found nil

theorem mem_ofList {pairs : List (String × α)} : ∀ entry ∈ ofList pairs, entry ∈ pairs := by
  refine ofList_induction (motive := fun entries => ∀ entry ∈ entries, entry ∈ pairs) nofun ?_
  intro pair given entries kept entry member
  rcases mem_insert member with rfl | old
  · exact given
  · exact kept entry old

theorem find?_foldl_insert {pairs : List (String × α)} (distinct : (pairs.map Prod.fst).Nodup)
    (found : List (String × α)) (key : String) (value : α) :
    find? key (pairs.foldl (fun entries pair => insert pair.1 pair.2 entries) found) = some value ↔
      (key, value) ∈ pairs ∨ key ∉ pairs.map Prod.fst ∧ find? key found = some value := by
  induction pairs generalizing found with
  | nil => simp
  | cons pair pairs ih =>
    obtain ⟨first, held⟩ := pair
    obtain ⟨fresh, others⟩ := List.nodup_cons.mp distinct
    rw [List.foldl_cons, ih others, find?_insert]
    by_cases same : first = key
    · subst same
      have absent (value : α) : (first, value) ∉ pairs := fun member =>
        fresh (List.mem_map.mpr ⟨_, member, rfl⟩)
      simp [absent, fresh, eq_comm]
    · simp [same, Ne.symm same]

/-- Entries from pairs with distinct keys hold each value under its key, and nothing else. -/
theorem find?_ofList {pairs : List (String × α)} (distinct : (pairs.map Prod.fst).Nodup)
    {key : String} {value : α} : find? key (ofList pairs) = some value ↔ (key, value) ∈ pairs := by
  rw [ofList, find?_foldl_insert distinct]
  simp [find?]

theorem ascending_iff : Ascending entries ↔ (entries.map Prod.fst).Pairwise (· < ·) :=
  List.pairwise_map.symm

theorem ascending_replace (ascending : Ascending entries) (key : String) (value : α) :
    Ascending (replace key value entries) := by
  rwa [ascending_iff, keys_replace, ← ascending_iff]

theorem ascending_insert (ascending : Ascending entries) (key : String) (value : α) :
    Ascending (insert key value entries) := by
  induction entries with
  | nil => simp [insert, Ascending]
  | cons entry rest ih =>
    obtain ⟨k, old⟩ := entry
    obtain ⟨above, ordered⟩ := List.pairwise_cons.mp ascending
    simp only [insert]
    by_cases same : k = key
    · subst same
      simpa [Ascending] using ascending
    · by_cases below : key < k
      · simp only [same, below, if_true, if_false]
        refine List.pairwise_cons.mpr ⟨fun entry member => ?_, ascending⟩
        rcases List.mem_cons.mp member with rfl | later
        · exact below
        · exact below.trans (above entry later)
      · simp only [same, below, if_false]
        refine List.pairwise_cons.mpr ⟨fun entry member => ?_, ih ordered⟩
        rcases mem_insert member with rfl | later
        · exact lt_of_le_of_ne (not_lt.mp below) same
        · exact above entry later

theorem ascending_ofList (pairs : List (String × α)) : Ascending (ofList pairs) := by
  refine ofList_induction List.Pairwise.nil ?_
  intro pair _ entries ascending
  exact ascending_insert ascending pair.1 pair.2

/-- Under a key that is there, an insertion is a replacement. -/
theorem insert_eq_replace (ascending : Ascending entries) (found : find? key entries = some old)
    (value : α) : insert key value entries = replace key value entries := by
  induction entries with
  | nil => simp [find?] at found
  | cons entry rest ih =>
    obtain ⟨k, first⟩ := entry
    obtain ⟨above, ordered⟩ := List.pairwise_cons.mp ascending
    by_cases same : k = key
    · simp [insert, replace, same]
    · have later : find? key rest = some old := by simpa [find?, same] using found
      have below : ¬ key < k := not_lt.mpr (above _ (mem_of_find? later)).le
      simp [insert, replace, same, below, ih ordered later]

/-- A key above all others goes to the end. -/
theorem insert_above (above : ∀ entry ∈ entries, entry.1 < key) (value : α) :
    insert key value entries = entries ++ [(key, value)] := by
  induction entries with
  | nil => rfl
  | cons entry rest ih =>
    have first : entry.1 < key := above entry List.mem_cons_self
    have later := ih fun entry member => above entry (List.mem_cons_of_mem _ member)
    simp [insert, first.ne, first.asymm, later]

/-- Pairs in ascending order are entries as they stand. -/
theorem ofList_ascending {pairs : List (String × α)} (ascending : Ascending pairs) :
    ofList pairs = pairs := by
  -- what has been inserted so far stands before what is left
  suffices ∀ found, Ascending (found ++ pairs) →
      pairs.foldl (fun entries pair => insert pair.1 pair.2 entries) found = found ++ pairs from
    this [] ascending
  clear ascending
  induction pairs with
  | nil => simp
  | cons pair pairs ih =>
    intro found ascending
    have above : ∀ entry ∈ found, entry.1 < pair.1 := fun entry member =>
      (List.pairwise_append.mp ascending).2.2 entry member pair List.mem_cons_self
    rw [List.foldl_cons, insert_above above, ih]
    · simp
    · simpa using ascending

end StackScript.Entries
