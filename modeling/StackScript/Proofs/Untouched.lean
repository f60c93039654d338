/-
# StackScript.Proofs.Untouched — what a write leaves alone

A write changes one slot of one container, the one it stops in. `Slot.fork` says where
another path leaves the path of the write: at the first step where the two name
different slots. A path that leaves no later than the write stops reads what it read
before (`Slot.walk_apart`), but for the nulls that fill up an array on the way to a
position past its end (`Slot.Padded`).

Seen as a tree, only the container where the write stopped gets another size. `Value.at?`
leads to every container, also to those that no walk enters, and `Value.extent?` is the
size of one, so this is `Slot.extent_apart`.
-/
import StackScript.Proofs.ReadBack

namespace StackScript

set_option autoImplicit false

/-- The key that an index is for a dict: a position is written in decimal digits. -/
def Index.spelled : Index → String
  | .position n => String.ofList (Nat.toDigits 10 n)
  | .key name => name

theorem Index.toKey_eq_spelled (index : Index) : index.toKey = index.spelled := by
  cases index with
  | position n => exact Nat.toString_eq_ofList_toDigits
  | key name => rfl

namespace Value

/-- Two indexes name one slot of a container: the same position of an array, or the same key
of a dict. -/
def alike (holder : Value) (first second : Index) : Bool :=
  if holder.type = .dict then first.spelled = second.spelled else first = second

/-- How many slots an array has, or under which keys a dict has them. -/
inductive Extent where
  | items (length : Nat)
  | keys (names : List String)
deriving DecidableEq

def extent? : Value → Option Extent
  | .array items => some (.items items.length)
  | .dict entries => some (.keys (entries.map Prod.fst))
  | _ => none

/-- The value at an address. Unlike a walk, an address leads into every slot there is. -/
def at? (value : Value) : List Index → Option Value
  | [] => some value
  | index :: rest =>
    match value.slot? index with
    | .ok (some slot) => slot.at? rest
    | _ => none

theorem alike_congr {first second : Value} (same : first.type = second.type) :
    first.alike = second.alike := by
  unfold alike
  rw [same]

theorem slot?_alike {holder : Value} {first second : Index}
    (alike : holder.alike first second = true) : holder.slot? first = holder.slot? second := by
  cases holder with
  | dict entries =>
    have same : first.toKey = second.toKey := by
      simpa [Value.alike, type, Index.toKey_eq_spelled] using alike
    rw [slot?, slot?, same]
  | _ =>
    have same : first = second := by simpa [Value.alike, type] using alike
    rw [same]

theorem at?_cons {value slot : Value} {index : Index}
    (found : value.slot? index = .ok (some slot)) (rest : List Index) :
    value.at? (index :: rest) = slot.at? rest := by
  rw [at?, found]

theorem at?_congr {first second : Value} {index : Index}
    (same : first.slot? index = second.slot? index) (rest : List Index) :
    first.at? (index :: rest) = second.at? (index :: rest) := by
  rw [at?, at?, same]

end Value

namespace Slot

variable {container slot value written inner : Value} {index other : Index} {stack after : Stack}

/-! ## One slot -/

/-- A write at the first index of an array fills the slot under the second with null: it lies
from the end of the array on, and before the first. -/
def Padded (holder : Value) (index other : Index) : Prop :=
  match holder, index, other with
  | .array items, .position n, .position m => items.length ≤ m ∧ m < n
  | _, _, _ => False

theorem getElem?_store_ne {items stored : List Value} {n m : Nat}
    (done : store items n value = .ok stored) (apart : n ≠ m) :
    stored[m]? = if items.length ≤ m ∧ m < n then some .null else items[m]? := by
  unfold store at done
  split at done
  · rename_i inside
    cases done
    rw [List.getElem?_set_ne apart, if_neg (by omega)]
  · rename_i outside
    split at done <;> cases done
    have width : (items ++ List.replicate (n - items.length) Value.null).length = n := by
      simp only [List.length_append, List.length_replicate]
      omega
    rcases Nat.lt_or_gt_of_ne apart with past | before
    · rw [if_neg (by omega), List.getElem?_eq_none, List.getElem?_eq_none (by omega)]
      rw [List.length_append, width, List.length_singleton]
      omega
    · rw [List.getElem?_append_left (by omega), List.getElem?_append]
      by_cases kept : m < items.length
      · rw [if_pos kept, if_neg (by omega)]
      · rw [if_neg kept, if_pos (by omega), List.getElem?_replicate_of_lt (by omega)]

theorem length_store {items stored : List Value} {n : Nat}
    (done : store items n value = .ok stored) :
    stored.length = max items.length (n + 1) ∧ stored.length ≤ items.length + 65536 := by
  unfold store at done
  split at done
  · cases done
    rw [List.length_set]
    omega
  · split at done <;> cases done
    rename_i growth
    unfold maxGrowth at growth
    simp only [List.length_append, List.length_replicate, List.length_singleton]
    omega

/-- What a `put` makes of the other slots. -/
theorem put_apart (stored : put container index value = .ok written)
    (apart : container.alike index other = false) :
    (Padded container index other →
        container.slot? other = .ok none ∧ written.slot? other = .ok (some .null)) ∧
      (¬ Padded container index other → written.slot? other = container.slot? other) := by
  cases container with
  | array items =>
    cases index with
    | key name => cases stored
    | position n =>
      rw [put] at stored
      split at stored <;> cases stored
      rename_i grown done
      cases other with
      | key name => exact ⟨False.elim, fun _ => rfl⟩
      | position m =>
        have different : n ≠ m := by simpa [Value.alike, Value.type] using apart
        have slots := getElem?_store_ne done different
        constructor
        · rintro ⟨past, before⟩
          rw [if_pos ⟨past, before⟩] at slots
          rw [Value.slot?, Value.slot?, slots, List.getElem?_eq_none past]
          exact ⟨rfl, rfl⟩
        · intro kept
          have clear : ¬ (items.length ≤ m ∧ m < n) := kept
          rw [if_neg clear] at slots
          rw [Value.slot?, Value.slot?, slots]
  | dict entries =>
    have different : index.toKey ≠ other.toKey := by
      simpa [Value.alike, Value.type, Index.toKey_eq_spelled] using apart
    cases stored
    refine ⟨False.elim, fun _ => ?_⟩
    rw [Value.slot?, Value.slot?, Entries.find?_insert, if_neg different]
  | _ => cases stored

theorem putBack_apart (found : container.slot? index = .ok (some slot))
    (apart : container.alike index other = false) (inner : Value) :
    (putBack container index inner).slot? other = container.slot? other := by
  cases container with
  | array items =>
    cases index with
    | key name => cases found
    | position n =>
      cases other with
      | key name => rfl
      | position m =>
        have different : n ≠ m := by simpa [Value.alike, Value.type] using apart
        rw [putBack, Value.slot?, Value.slot?, List.getElem?_set_ne different]
  | dict entries =>
    have different : index.toKey ≠ other.toKey := by
      simpa [Value.alike, Value.type, Index.toKey_eq_spelled] using apart
    have held : Entries.find? index.toKey entries = some slot := Except.ok.inj found
    rw [putBack, Value.slot?, Value.slot?, Entries.find?_replace held, if_neg different]
  | _ => cases found

theorem putBack_alike (found : container.slot? index = .ok (some slot))
    (alike : container.alike index other = true) (inner : Value) :
    (putBack container index inner).slot? other = .ok (some inner) := by
  have holding := putBack_holds found inner
  rw [← Value.alike_congr holding.type] at alike
  rw [← Value.slot?_alike alike, holding.slot]

theorem extent?_putBack (container : Value) (index : Index) (inner : Value) :
    (putBack container index inner).extent? = container.extent? := by
  cases container with
  | array items =>
    cases index with
    | key name => rfl
    | position n => rw [putBack, Value.extent?, Value.extent?, List.length_set]
  | dict entries => rw [putBack, Value.extent?, Value.extent?, Entries.keys_replace]
  | _ => rfl

/-! ## One step -/

/-- The first step at which two paths into a container name different slots. Up to there they
lead through the same ones. -/
def fork : Value → List Index → List Index → Option Nat
  | container, index :: path, other :: rest =>
    if container.alike index other then
      match container.slot? index with
      | .ok (some slot) => (fork slot path rest).map (· + 1)
      | _ => none
    else some 0
  | _, _, _ => none

/-- Two paths that part at a step part at the first one, or part behind it in the slot that both
name there. -/
inductive Parts (container : Value) (index : Index) (path : List Index) : List Index → Nat → Prop
  | here {other : Index} {rest : List Index} (apart : container.alike index other = false) :
      Parts container index path (other :: rest) 0
  | deeper {other : Index} {rest : List Index} {slot : Value} {step : Nat}
      (alike : container.alike index other = true)
      (found : container.slot? index = .ok (some slot))
      (parts : fork slot path rest = some step) :
      Parts container index path (other :: rest) (step + 1)

theorem fork_cases {path aside : List Index} {step : Nat}
    (parts : fork container (index :: path) aside = some step) :
    Parts container index path aside step := by
  cases aside with
  | nil => cases parts
  | cons other rest =>
    rw [fork] at parts
    cases alike : container.alike index other with
    | false =>
      rw [alike] at parts
      cases parts
      exact .here alike
    | true =>
      rw [alike, if_pos rfl] at parts
      split at parts
      · rename_i slot found
        obtain ⟨inner, behind, rfl⟩ := Option.map_eq_some_iff.mp parts
        exact .deeper alike found behind
      · cases parts

/-- A walk that starts with a known index looks at the slot and goes on from there. -/
theorem walk_index (container : Value) (index : Index) (rest : List Step) :
    walk container (.index index :: rest) =
      match container.slot? index with
      | .error fault => throw fault
      | .ok none => pure none
      | .ok (some slot) => resume container slot rest := by
  apply Work.ext
  intro stack
  exact walk_cons rfl

theorem resume_congr {holder : Value} (same : holder.type = container.type) (slot : Value)
    (rest : List Step) : resume holder slot rest = resume container slot rest := by
  unfold resume
  rw [Value.enters_congr same rfl]

/-- Two containers of one type with the same slot under an index are walked alike from there. -/
theorem walk_same (same : written.type = container.type)
    (slots : written.slot? index = container.slot? index) (rest : List Step) :
    walk written (.index index :: rest) = walk container (.index index :: rest) := by
  rw [walk_index, walk_index, slots]
  cases container.slot? index with
  | error fault => rfl
  | ok found =>
    cases found with
    | none => rfl
    | some slot => exact resume_congr same slot rest

/-! ## Reading elsewhere -/

/-- Where the write stops, the other path comes to a slot that the write fills with null. -/
def Fills (stop : Stop) (path aside : List Index) : Prop :=
  ∃ index other, path[stop.step]? = some index ∧ aside[stop.step]? = some other ∧
    Padded stop.holder index other

theorem fills_cons {stop : Stop} {path aside : List Index} :
    Fills ⟨stop.step + 1, stop.holder⟩ (index :: path) (other :: aside) ↔
      Fills stop path aside := by
  simp only [Fills, List.getElem?_cons_succ]

theorem fills_head {path aside : List Index} :
    Fills ⟨0, container⟩ (index :: path) (other :: aside) ↔ Padded container index other := by
  simp [Fills]

theorem ne_nil_of_fork {path aside : List Index} {step : Nat}
    (parts : fork container path aside = some step) : known aside ≠ [] := by
  rintro none
  obtain rfl : aside = [] := List.map_eq_nil_iff.mp none
  cases path <;> cases parts

/-- A path that leaves the path of a write before or where the write stops reads what it read
before the write, unless it comes to a slot that the write has filled with null. -/
theorem walk_apart {path aside : List Index} {step : Nat}
    (ran : (write value container (known path)).run stack = (.ok written, after))
    (parts : fork container path aside = some step) (before : step ≤ (stop container path).step) :
    (step = (stop container path).step ∧ Fills (stop container path) path aside →
        walk container (known aside) = pure none ∧
          walk written (known aside) = pure (some .null)) ∧
      (¬ (step = (stop container path).step ∧ Fills (stop container path) path aside) →
        walk written (known aside) = walk container (known aside)) := by
  induction path generalizing container written aside step with
  | nil => cases parts
  | cons index path ih =>
    cases write_cases rfl ran with
    | stopped stops stored =>
      rw [stop_here stops] at before ⊢
      cases fork_cases parts with
      | deeper => cases before
      | @here other rest apart =>
        obtain ⟨padded, kept⟩ := put_apart stored apart
        constructor
        · rintro ⟨-, fills⟩
          obtain ⟨absent, filled⟩ := padded (fills_head.mp fills)
          constructor
          · exact (walk_index ..).trans (by rw [absent])
          · refine (walk_index ..).trans ?_
            rw [filled]
            exact resume_simple rfl ..
        · intro clear
          have spared : ¬ Padded container index other := fun pads =>
            clear ⟨rfl, fills_head.mpr pads⟩
          exact walk_same (put_holds stored).type (kept spared) _
    | @inside slot inner _ more found enters wrote restored =>
      have further := ne_nil_of_known more
      rw [stop_deeper further found enters] at before ⊢
      subst restored
      cases fork_cases parts with
      | @here other rest apart =>
        refine ⟨fun last => absurd last.1 (Nat.succ_ne_zero _).symm, fun _ => ?_⟩
        exact walk_same (putBack_holds found inner).type (putBack_apart found apart inner) _
      | @deeper other rest same step alike again behind =>
        obtain rfl : same = slot := by
          rw [found] at again
          cases again
          rfl
        have onward := ne_nil_of_fork behind
        -- both walks enter the slot, one as it was and one as the write has left it
        have old : walk container (known (other :: rest)) = walk same (known rest) := by
          refine (walk_index ..).trans ?_
          rw [← Value.slot?_alike alike, found]
          exact resume_inside onward enters
        have new : walk (putBack container index inner) (known (other :: rest)) =
            walk inner (known rest) := by
          refine (walk_index ..).trans ?_
          rw [putBack_alike found alike inner]
          refine resume_inside onward ?_
          rw [← enters]
          exact Value.enters_congr (putBack_holds found inner).type (write_type further wrote)
        rw [old, new, fills_cons, Nat.add_right_cancel_iff]
        exact ih wrote behind (Nat.le_of_succ_le_succ before)

/-! ## Sizes -/

theorem extent?_at?_null (rest : List Index) : (Value.null.at? rest).bind Value.extent? = none := by
  cases rest <;> rfl

/-- An address that leaves the path of a write before or where the write stops, or ends before
that, leads to a container of the same size before and after. -/
theorem extent_apart {path address : List Index}
    (ran : (write value container (known path)).run stack = (.ok written, after))
    (spared : address.length < (stop container path).step ∨
      ∃ step ≤ (stop container path).step, fork container path address = some step) :
    (written.at? address).bind Value.extent? = (container.at? address).bind Value.extent? := by
  induction path generalizing container written address with
  | nil =>
    rcases spared with short | ⟨_, _, parts⟩
    · exact absurd short (Nat.not_lt_zero _)
    · cases parts
  | cons index path ih =>
    cases write_cases rfl ran with
    | stopped stops stored =>
      rw [stop_here stops] at spared
      obtain ⟨step, before, parts⟩ := spared.resolve_left (Nat.not_lt_zero _)
      obtain rfl : step = 0 := Nat.le_zero.mp before
      cases fork_cases parts with
      | @here other rest apart =>
        obtain ⟨padded, kept⟩ := put_apart stored apart
        by_cases pads : Padded container index other
        · obtain ⟨absent, filled⟩ := padded pads
          rw [Value.at?_cons filled, extent?_at?_null, Value.at?, absent]
          rfl
        · rw [Value.at?_congr (kept pads)]
    | @inside slot inner _ more found enters wrote restored =>
      have further := ne_nil_of_known more
      rw [stop_deeper further found enters] at spared
      subst restored
      cases address with
      | nil => exact extent?_putBack container index inner
      | cons other rest =>
        cases alike : container.alike index other with
        | false => rw [Value.at?_congr (putBack_apart found alike inner)]
        | true =>
          have old : container.slot? other = .ok (some slot) := by
            rw [← Value.slot?_alike alike, found]
          rw [Value.at?_cons (putBack_alike found alike inner), Value.at?_cons old]
          refine ih wrote ?_
          rcases spared with short | ⟨step, before, parts⟩
          · exact .inl (Nat.lt_of_succ_lt_succ short)
          · cases fork_cases parts with
            | here apart =>
              rw [alike] at apart
              cases apart
            | deeper _ again behind =>
              rw [found] at again
              cases again
              exact .inr ⟨_, Nat.le_of_succ_le_succ before, behind⟩

/-! ## The written container -/

theorem at?_stop (container : Value) (path : List Index) :
    container.at? (path.take (stop container path).step) = some (stop container path).holder := by
  fun_induction stop container path with
  | case1 => rfl
  | case2 => rfl
  | case3 _ _ _ _ _ found _ _ ih => rw [List.take_succ_cons, Value.at?_cons found, ih]
  | case4 => rfl
  | case5 => rfl

/-- Where a write stopped, it has put the value into the container that it found there. -/
theorem write_stop {path : List Index} (nonempty : path ≠ [])
    (ran : (write value container (known path)).run stack = (.ok written, after)) :
    ∃ index filled, path[(stop container path).step]? = some index ∧
      put (stop container path).holder index value = .ok filled ∧
      written.at? (path.take (stop container path).step) = some filled := by
  induction path generalizing container written with
  | nil => exact absurd rfl nonempty
  | cons index path ih =>
    cases write_cases rfl ran with
    | stopped stops stored =>
      rw [stop_here stops]
      exact ⟨index, written, rfl, stored, rfl⟩
    | @inside slot inner _ more found enters wrote restored =>
      have further := ne_nil_of_known more
      obtain ⟨last, filled, named, stored, reached⟩ := ih further wrote
      rw [stop_deeper further found enters]
      refine ⟨last, filled, named, stored, ?_⟩
      rw [List.take_succ_cons, ← restored, Value.at?_cons (putBack_holds found inner).slot, reached]

/-! ## Growing -/

/-- A write that goes on behind its first step writes inside the slot there. -/
theorem write_enters {rest : List Step} (more : rest ≠ [])
    (found : container.slot? index = .ok (some slot)) (enters : container.enters slot = .ok true)
    (value : Value) (stack : Stack) :
    (write value container (.index index :: rest)).run stack =
      (write value slot rest >>= fun inner => pure (putBack container index inner)).run stack := by
  rw [write_cons rfl, found]
  dsimp only
  rw [if_neg (mt List.isEmpty_iff.mp more), enters]

/-- The write succeeds, and pops nothing. -/
def Admitted (value container : Value) (path : List Index) (stack : Stack) : Prop :=
  ∃ written, (write value container (known path)).run stack = (.ok written, stack)

theorem admitted_enters {path : List Index} (more : path ≠ [])
    (found : container.slot? index = .ok (some slot)) (enters : container.enters slot = .ok true)
    (value : Value) (stack : Stack) :
    Admitted value container (index :: path) stack ↔ Admitted value slot path stack := by
  have onward : known path ≠ [] := by simpa [known] using more
  have begins : (write value container (known (index :: path))).run stack = _ :=
    write_enters onward found enters value stack
  unfold Admitted
  rw [begins]
  constructor
  · rintro ⟨written, ran⟩
    obtain ⟨inner, _, wrote, ended⟩ := Work.of_run_bind_ok ran
    cases ended
    exact ⟨inner, wrote⟩
  · rintro ⟨inner, wrote⟩
    exact ⟨putBack container index inner, Work.run_bind_ok wrote _⟩

/-- Another index at the step where a write stopped is up to the container that it stopped in. -/
theorem admitted_stop {path : List Index} (nonempty : path ≠ [])
    (ran : (write value container (known path)).run stack = (.ok written, after)) (last : Index) :
    Admitted value container (path.set (stop container path).step last) stack ↔
      Admitted value (stop container path).holder
        (last :: path.drop ((stop container path).step + 1)) stack := by
  induction path generalizing container written with
  | nil => exact absurd rfl nonempty
  | cons index path ih =>
    cases write_cases rfl ran with
    | stopped stops stored =>
      rw [stop_here stops]
      exact Iff.rfl
    | @inside slot inner _ more found enters wrote restored =>
      have further := ne_nil_of_known more
      rw [stop_deeper further found enters, List.set_cons_succ,
        List.drop_succ_cons]
      have still : path.set (stop slot path).step last ≠ [] := by simpa using further
      exact (admitted_enters still found enters value stack).trans (ih further wrote)

theorem admitted_past {items : List Value} {n : Nat} (past : items.length ≤ n) (value : Value)
    (rest : List Index) (stack : Stack) :
    Admitted value (.array items) (.position n :: rest) stack ↔ n + 1 ≤ items.length + 65536 := by
  have begins : (write value (.array items) (known (.position n :: rest))).run stack = _ :=
    write_cons rfl
  unfold Admitted
  rw [begins, Value.slot?, List.getElem?_eq_none past]
  dsimp only
  rw [Work.run_ofExcept, put]
  by_cases fits : n + 1 ≤ items.length + 65536
  · rw [store_past past fits]
    exact iff_of_true ⟨_, rfl⟩ fits
  · rw [store_far (by omega)]
    refine iff_of_false ?_ fits
    rintro ⟨_, ended⟩
    cases ended

/-- Counted in words of 64 bits, with an overflow of the next position caught, the room is the
same. -/
theorem fits_word {length : Nat} {position : UInt64} (past : length ≤ position.toNat)
    (short : length < 9223372036854775808) :
    position.toNat + 1 ≤ length + 65536 ↔
      position + 1 ≠ 0 ∧ position + 1 - UInt64.ofNat length ≤ 65536 := by
  have bound := position.toNat_lt
  have next : (position + 1).toNat = (position.toNat + 1) % 18446744073709551616 :=
    UInt64.toNat_add ..
  have width : (UInt64.ofNat length).toNat = length := by
    rw [UInt64.toNat_ofNat']
    omega
  have zero : (0 : UInt64).toNat = 0 := rfl
  have most : (65536 : UInt64).toNat = 65536 := rfl
  rw [ne_eq, ← UInt64.toNat_inj, UInt64.le_iff_toNat_le, UInt64.toNat_sub, width, next, zero, most]
  omega

/-! ## The law -/

/-- **A write leaves everything else alone.** Let a write along known indexes succeed, and let
`stop` be where it stopped. Another path that leaves its path no later reads what it read before;
only where an array was stretched, the slots from its old end up to the written position were
absent and are now null. No container but the one where the write stopped has another size. An
array there now has room for the written position, and grew by no more than it may; a position
past its end is admitted exactly if the growth, as an integer, is within that bound, and so it is
when it is counted in words. -/
theorem write_untouched (value container : Value) (path : List Index) (stack : Stack)
    (isContainer : container.isContainer = true) (nonempty : path ≠ []) {written : Value}
    {after : Stack} (wrote : (write value container (known path)).run stack = (.ok written, after)) :
    let stop := stop container path
    (∀ (aside : List Index) (step : Nat), fork container path aside = some step →
      step ≤ stop.step →
        (step = stop.step ∧ Fills stop path aside →
          read container (known aside) = pure none ∧
            read written (known aside) = pure (some .null)) ∧
        (¬ (step = stop.step ∧ Fills stop path aside) →
          read written (known aside) = read container (known aside))) ∧
      (∀ address : List Index,
        (address.length < stop.step ∨
          ∃ step ≤ stop.step, fork container path address = some step) →
        (written.at? address).bind Value.extent? = (container.at? address).bind Value.extent?) ∧
      container.at? (path.take stop.step) = some stop.holder ∧
      ∀ items, stop.holder = .array items →
        (∃ position grown, path[stop.step]? = some (.position position) ∧
          written.at? (path.take stop.step) = some (.array grown) ∧
          grown.length = max items.length (position + 1) ∧
          grown.length ≤ items.length + 65536) ∧
        (∀ position : Nat, items.length ≤ position →
          (Admitted value container (path.set stop.step (.position position)) stack ↔
            (position : Int) + 1 - items.length ≤ 65536)) ∧
        ∀ position : UInt64, items.length ≤ position.toNat → items.length < 9223372036854775808 →
          (Admitted value container (path.set stop.step (.position position.toNat)) stack ↔
            position + 1 ≠ 0 ∧ position + 1 - UInt64.ofNat items.length ≤ 65536) := by
  intro stop
  have same := Value.isContainer_congr (write_type nonempty wrote)
  have reads (steps : List Step) : read container steps = walk container steps := if_pos isContainer
  have rereads (steps : List Step) : read written steps = walk written steps :=
    if_pos (same.trans isContainer)
  refine ⟨?_, fun address spared => extent_apart wrote spared, at?_stop container path, ?_⟩
  · intro aside step parts before
    rw [reads, rereads]
    exact walk_apart wrote parts before
  · intro items isArray
    have admits (position : Nat) (past : items.length ≤ position) :
        Admitted value container (path.set stop.step (.position position)) stack ↔
          position + 1 ≤ items.length + 65536 := by
      refine (admitted_stop nonempty wrote _).trans ?_
      rw [isArray]
      exact admitted_past past ..
    refine ⟨?_, ?_, ?_⟩
    · obtain ⟨index, filled, named, stored, reached⟩ := write_stop nonempty wrote
      rw [isArray] at stored
      cases index with
      | key name => cases stored
      | position n =>
        rw [put] at stored
        split at stored <;> cases stored
        rename_i grown done
        exact ⟨n, grown, named, reached, length_store done⟩
    · intro position past
      rw [admits position past]
      omega
    · intro position past short
      rw [admits position.toNat past]
      exact fits_word past short

/-- An array in a dict is stretched by two nulls. The first of them is read with a step to spare;
the other array is named by a position, and stays as it is. The last position that fits and the
last one of all are asked for. -/
theorem write_untouched_padded :
    let container : Value := .dict [("7", .array [.null]), ("a", .array [.boolean true])]
    let path : List Index := [.key "a", .position 3]
    let written : Value :=
      .dict [("7", .array [.null]), ("a", .array [.boolean true, .null, .null, .text "x"])]
    (write (.text "x") container (known path)).run [] = (.ok written, []) ∧
      read container (known [.key "a", .position 1, .key "b"]) = pure none ∧
      read written (known [.key "a", .position 1, .key "b"]) = pure (some .null) ∧
      read written (known [.position 7, .position 0]) =
        read container (known [.position 7, .position 0]) ∧
      (written.at? [.position 7]).bind Value.extent? =
        (container.at? [.position 7]).bind Value.extent? ∧
      Admitted (.text "x") container [.key "a", .position 65536] [] ∧
      ¬ Admitted (.text "x") container [.key "a", .position 65537] [] ∧
      ¬ Admitted (.text "x") container [.key "a", .position 18446744073709551615] [] := by
  intro container path written
  have wrote : (write (.text "x") container (known path)).run [] = (.ok written, []) := rfl
  obtain ⟨reads, extents, _, grows⟩ :=
    write_untouched (.text "x") container path [] rfl (List.cons_ne_nil _ _) wrote
  have fills : Fills (stop container path) path [.key "a", .position 1, .key "b"] :=
    ⟨.position 3, .position 1, rfl, rfl, Nat.le_refl 1, by decide⟩
  have filled := (reads [.key "a", .position 1, .key "b"] 1 rfl (Nat.le_refl 1)).1 ⟨rfl, fills⟩
  have other : fork container path [.position 7, .position 0] = some 0 := by decide +kernel
  obtain ⟨_, admits, words⟩ := grows [.boolean true] rfl
  refine ⟨wrote, filled.1, filled.2, ?_, ?_, ?_, ?_, ?_⟩
  · refine (reads [.position 7, .position 0] 0 other (Nat.zero_le _)).2 ?_
    rintro ⟨last, _⟩
    cases last
  · exact extents [.position 7] (.inr ⟨0, Nat.zero_le _, by decide +kernel⟩)
  · exact (admits 65536 (by decide)).mpr (by decide)
  · exact fun admitted => absurd ((admits 65537 (by decide)).mp admitted) (by decide)
  · intro admitted
    exact ((words 18446744073709551615 (by decide) (by decide)).mp admitted).1 rfl

end Slot

end StackScript
