/-
# StackScript.Proofs.Construct — construction, element by element

An array literal and a dict literal construct their elements in one way,
`constructElement`, from first to last; they differ only in what they put the
values into. Construction is frugal work on the stack.
-/
import StackScript.Proofs.Literal
import StackScript.Proofs.Stack

namespace StackScript

set_option autoImplicit false

open OnStack (Frugal)

/-- The value of one element of an array or dict literal. -/
def constructElement (bindings : List (String × Value)) : Json → OnStack Value
  | .string text => resolveElement bindings text
  | literal => construct bindings literal

variable (bindings : List (String × Value))

@[simp] theorem construct_null : construct bindings .null = pure .null := rfl

@[simp] theorem construct_bool (b : Bool) : construct bindings (.bool b) = pure (.boolean b) := rfl

@[simp] theorem construct_integer (n : Int) :
    construct bindings (.integer n) = pure (.number (Number.ofInt n)) := rfl

@[simp] theorem construct_float (x : Float) (finite : Number.isFinite x = true) :
    construct bindings (.float x finite) = pure (.number x) := rfl

@[simp] theorem construct_text (text : String) :
    construct bindings (.array [.string text]) = pure (.text text) := rfl

theorem constructItems_eq (found : List Value) (items : List Json) :
    constructItems bindings found items =
      items.mapM (constructElement bindings) >>= fun values =>
        pure (.array (found.reverse ++ values)) := by
  induction items generalizing found with
  | nil => simp [constructItems]
  | cons item items ih =>
    cases item <;> simp [constructItems, constructElement, ih]

/-- An array literal constructs its elements in order. -/
theorem construct_array (items : List Json) :
    construct bindings (.object [(arrayTag, .array items)]) =
      items.mapM (constructElement bindings) >>= fun values => pure (.array values) := by
  change constructItems bindings [] items = _
  rw [constructItems_eq, List.reverse_nil]
  rfl

/-- What was pushed is what is popped: the stack between the two makes no difference. -/
theorem pushElement_pop {α : Type} (text : String) (next : Value → OnStack α) :
    (do
      pushElement bindings text
      let value ← Stack.pop
      next value) = resolveElement bindings text >>= next := by
  apply Work.ext
  intro stack
  rw [pushElement, bind_assoc, Work.run_bind, Work.run_bind]
  rcases (resolveElement bindings text).run stack with ⟨_ | _, _⟩ <;> rfl

theorem constructEntries_eq (found : List (String × Value)) (entries : List (String × Json)) :
    constructEntries bindings found entries =
      (entries.map Prod.snd).mapM (constructElement bindings) >>= fun values =>
        pure (.dict (((entries.map Prod.fst).zip values).foldl
          (fun found entry => Entries.insert entry.1 entry.2 found) found)) := by
  induction entries generalizing found with
  | nil => simp [constructEntries]
  | cons entry entries ih =>
    obtain ⟨key, tree⟩ := entry
    cases tree <;> simp [constructEntries, constructElement, pushElement_pop, ih]

/-- A dict literal constructs the same elements, and puts each under its key. -/
theorem construct_dict (entries : List (String × Json)) :
    construct bindings (.object [(dictTag, .object entries)]) =
      (entries.map Prod.snd).mapM (constructElement bindings) >>= fun values =>
        pure (.dict (Entries.ofList ((entries.map Prod.fst).zip values))) := by
  change constructEntries bindings [] entries = _
  exact constructEntries_eq bindings [] entries

/-- An array that is not text is a program. -/
theorem construct_program {items : List Json} (notText : ∀ text, items ≠ [.string text]) :
    construct bindings (.array items) =
      pure (.function (.program (Program.ofItems items))) := by
  unfold construct
  rw [Json.shape_program notText]

/-- An object that carries neither tag over the right kind of tree is no literal. -/
theorem construct_other {entries : List (String × Json)}
    (notArray : ∀ items, entries ≠ [(arrayTag, .array items)])
    (notDict : ∀ inner, entries ≠ [(dictTag, .object inner)]) :
    construct bindings (.object entries) = throw (.unknownType (Json.object entries).render) := by
  rcases Json.shape_object entries with ⟨tree, rfl, _⟩ | ⟨tree, rfl, _⟩ | shape
  · cases tree with
    | array items => exact absurd rfl (notArray items)
    | _ => rfl
  · cases tree with
    | object inner => exact absurd rfl (notDict inner)
    | _ => rfl
  · unfold construct
    rw [shape]

/-! ## The stack -/

theorem Path.resolvePush_frugal (path : Path) : Frugal (path.resolvePush bindings) := by
  unfold Path.resolvePush
  split
  · exact .throw trivial
  · split
    · exact .pure _
    · split
      · rename_i failed
        exact .throw (Path.steps_ordinary failed)
      · refine .bind (Slot.read_frugal _ _) fun found => ?_
        split
        · exact .pure _
        · exact .throw trivial

theorem resolveElement_frugal (text : String) : Frugal (resolveElement bindings text) := by
  unfold resolveElement
  split
  · exact Path.resolvePush_frugal bindings _
  · exact .throw trivial

theorem constructElement_frugal {tree : Json} (frugal : Frugal (construct bindings tree)) :
    Frugal (constructElement bindings tree) := by
  cases tree with
  | string text => exact resolveElement_frugal bindings text
  | _ => exact frugal

theorem construct_frugal (tree : Json) : Frugal (construct bindings tree) := by
  induction tree using Json.literalInduction with
  | null | bool _ | integer _ | float _ _ | text _ => exact .pure _
  | string text => exact .throw trivial
  | program items notText _ =>
    rw [construct_program bindings notText]
    exact .pure _
  | array items ih =>
    rw [construct_array]
    exact .bind (.mapM fun item member => constructElement_frugal bindings (ih item member))
      fun values => .pure _
  | dict entries ih =>
    rw [construct_dict]
    refine .bind (.mapM fun item member => ?_) fun values => .pure _
    obtain ⟨entry, within, rfl⟩ := List.mem_map.mp member
    exact constructElement_frugal bindings (ih entry within)
  | other entries notArray notDict =>
    rw [construct_other bindings notArray notDict]
    exact .throw trivial

end StackScript
