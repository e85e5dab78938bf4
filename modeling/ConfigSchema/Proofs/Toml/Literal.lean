import ConfigSchema.Docs.Snippet
import ConfigSchema.Json.Document
import ConfigSchema.Proofs.Json.Fields
import ConfigSchema.Proofs.Json.Shortest
import ConfigSchema.Proofs.Toml.Quote

/-!
# Literals are unambiguous

Where the literal of a value ends can be seen from the literal itself, unless it is a number in
front of more of a number (`Delimited`). By induction on the value, its items and entries are found
again one after the other, so different values have different literals (`literal_inj`).
-/

namespace ConfigSchema

theorem Quoted.encode_append_inj {s t : String} {r r' : List Char}
    (h : encode s.toList ++ r = encode t.toList ++ r') : s = t ∧ r = r' := by
  rw [encode_append, encode_append] at h
  have hread := @read_encoded r s
  rw [(List.cons.inj h).2, read_encoded, Except.ok.injEq, Prod.mk.injEq] at hread
  exact ⟨hread.1.symm, hread.2.symm⟩

theorem Number.chars_append_inj {m n : Number} {r r' : List Char} (hr : Numeral.Ends r)
    (hr' : Numeral.Ends r') (h : m.chars ++ r = n.chars ++ r') : m = n ∧ r = r' := by
  have hread := m.read_chars hr
  rw [h, n.read_chars hr', Except.ok.injEq, Prod.mk.injEq] at hread
  exact ⟨hread.1.symm, hread.2.symm⟩

namespace Toml

/-! ### How a literal begins -/

/-- The constructor of a value, and which of the two a flag is. -/
inductive Kind where
  | null
  | bool (b : Bool)
  | number
  | string
  | array
  | object

def kind : Node → Kind
  | .null => .null
  | .bool b => .bool b
  | .number _ => .number
  | .string _ => .string
  | .array _ => .array
  | .object _ => .object

/-- The kind of the values whose literals begin with the character. -/
def kindAt (c : Char) : Kind :=
  if c = 'n' then .null
  else if c = 't' then .bool true
  else if c = 'f' then .bool false
  else if c = '"' then .string
  else if c = '[' then .array
  else if c = '{' then .object
  else .number

variable {v w : Node} {c : Char} {r r' : List Char}

theorem literalItems_eq_map (xs : List Node) : literalItems xs = xs.map literal := by
  induction xs with
  | nil => rfl
  | cons x xs ih => rw [literalItems, ih, List.map_cons]

/-- An entry of an inline table. -/
def entry (e : String × Node) : String := key e.1 ++ " = " ++ literal e.2

theorem literalFields_eq_map (fs : Object) : literalFields fs = fs.map entry := by
  induction fs with
  | nil => rfl
  | cons e fs ih => rw [literalFields, ih, List.map_cons, entry]

theorem exists_cons_literal (v : Node) :
    ∃ c cs, (literal v).toList = c :: cs ∧ kindAt c = kind v ∧ c ≠ ']' := by
  cases v with
  | null => exact ⟨'n', _, rfl, rfl, by decide⟩
  | bool b => cases b <;> exact ⟨_, _, rfl, rfl, by decide⟩
  | number n =>
    obtain ⟨c, cs, hcs, hc⟩ := n.chars_eq_cons
    have hne {d : Char} (hminus : d ≠ '-') (hdigit : d.isDigit = false) : c ≠ d :=
      Number.ne_of_start hc hminus hdigit
    refine ⟨c, cs, by rw [literal, String.toList_ofList, hcs], ?_, hne (by decide) rfl⟩
    rw [kindAt, if_neg (hne (by decide) rfl), if_neg (hne (by decide) rfl),
      if_neg (hne (by decide) rfl), if_neg (hne (by decide) rfl), if_neg (hne (by decide) rfl),
      if_neg (hne (by decide) rfl)]
    rfl
  | string s => exact ⟨'"', _, by rw [literal, quote, String.toList_ofList]; rfl, rfl, by decide⟩
  | array xs =>
    refine ⟨'[', _, by rw [literal, String.append_assoc, String.toList_append]; rfl, rfl, by decide⟩
  | object fs =>
    cases fs with
    | nil => exact ⟨'{', _, rfl, rfl, by decide⟩
    | cons e fs =>
      refine ⟨'{', _, by rw [literal, String.append_assoc, String.toList_append]; rfl, rfl,
        by decide⟩

/-- Literals that begin alike are of values of one kind. -/
theorem kind_eq_of_append_eq (h : (literal v).toList ++ r = (literal w).toList ++ r') :
    kind v = kind w := by
  obtain ⟨c, cs, hv, hkind, -⟩ := exists_cons_literal v
  obtain ⟨c', cs', hw, hkind', -⟩ := exists_cons_literal w
  rw [hv, hw] at h
  rw [← hkind, ← hkind', (List.cons.inj h).1]

/-! ### The parts of a list or a table -/

/-- What follows the first part: a comma in front of each further part. -/
def further (parts : List (List Char)) : List Char := parts.flatMap fun part => ',' :: ' ' :: part

theorem toList_intercalate_cons (part : String) (parts : List String) :
    (", ".intercalate (part :: parts)).toList =
      part.toList ++ further (parts.map String.toList) := by
  induction parts generalizing part with
  | nil => rw [String.intercalate_singleton]; simp [further]
  | cons next parts ih =>
    rw [String.intercalate_cons_cons, String.toList_append, ih, String.toList_append]
    simp [further]

section

variable {α : Type} {write : α → List Char} {close : Char} {x y : α} {xs ys : List α}

/-- Where the text of `x` ends does not depend on what follows, as long as no number goes on
there. -/
def Delimited (write : α → List Char) (x : α) : Prop :=
  ∀ ⦃y : α⦄ ⦃r r' : List Char⦄, Numeral.Ends r → Numeral.Ends r' →
    write x ++ r = write y ++ r' → x = y ∧ r = r'

theorem ends_further (hclose : Numeral.Ends (close :: r)) :
    Numeral.Ends (further (xs.map write) ++ close :: r) := by
  cases xs with
  | nil => exact hclose
  | cons x xs => exact .cons (by decide)

theorem further_append_inj (hxs : ∀ x ∈ xs, Delimited write x) (hcomma : close ≠ ',')
    (hclose : ∀ r, Numeral.Ends (close :: r))
    (h : further (xs.map write) ++ close :: r = further (ys.map write) ++ close :: r') :
    xs = ys ∧ r = r' := by
  induction xs generalizing ys with
  | nil =>
    cases ys with
    | nil => exact ⟨rfl, (List.cons.inj h).2⟩
    | cons y ys => exact absurd (List.cons.inj h).1 hcomma
  | cons x xs ih =>
    obtain ⟨hx, hxs⟩ := List.forall_mem_cons.mp hxs
    cases ys with
    | nil => exact absurd (List.cons.inj h).1.symm hcomma
    | cons y ys =>
      have hparts : write x ++ (further (xs.map write) ++ close :: r) =
          write y ++ (further (ys.map write) ++ close :: r') := by simpa [further] using h
      obtain ⟨rfl, hrest⟩ := hx (ends_further (hclose r)) (ends_further (hclose r')) hparts
      obtain ⟨rfl, hr⟩ := ih hxs hrest
      exact ⟨rfl, hr⟩

/-- The parts between an opening and a closing mark are found again one after the other. -/
theorem parts_append_inj (hxs : ∀ z ∈ x :: xs, Delimited write z) (hcomma : close ≠ ',')
    (hclose : ∀ r, Numeral.Ends (close :: r))
    (h : write x ++ (further (xs.map write) ++ close :: r) =
      write y ++ (further (ys.map write) ++ close :: r')) : x :: xs = y :: ys ∧ r = r' := by
  obtain ⟨hx, hxs⟩ := List.forall_mem_cons.mp hxs
  obtain ⟨rfl, hrest⟩ := hx (ends_further (hclose r)) (ends_further (hclose r')) h
  obtain ⟨rfl, hr⟩ := further_append_inj hxs hcomma hclose hrest
  exact ⟨rfl, hr⟩

end

theorem toList_literal_array (x : Node) (xs : List Node) : (literal (.array (x :: xs))).toList =
    '[' :: ((literal x).toList ++ (further (xs.map fun y => (literal y).toList) ++ [']'])) := by
  rw [literal, literalItems_eq_map, List.map_cons, String.append_assoc, String.toList_append,
    String.toList_append, toList_intercalate_cons, List.map_map, List.append_assoc]
  rfl

theorem toList_literal_object (e : String × Node) (fs : Object) :
    (literal (.object (e :: fs))).toList = '{' :: ' ' ::
      ((entry e).toList ++ (further (fs.map fun e => (entry e).toList) ++ [' ', '}'])) := by
  rw [literal, literalFields_eq_map, String.append_assoc, String.toList_append,
    String.toList_append, toList_intercalate_cons, List.map_map, List.append_assoc]
  rfl

theorem key_append_inj {k k' : String}
    (h : (key k).toList ++ ' ' :: r = (key k').toList ++ ' ' :: r') : k = k' ∧ r = r' := by
  have hquote {k k' : String} {r r' : List Char} (hk : isBare k = true) :
      k.toList ++ r ≠ Quoted.encode k'.toList ++ r' := by
    obtain ⟨d, ds, hd, hne, -⟩ := (isBare_iff.mp hk).exists_cons
    intro h
    rw [hd] at h
    exact hne (List.cons.inj h).1
  have hblank (r : List Char) : ∀ c ∈ (' ' :: r).head?, ¬ IsBareChar c := by
    rintro c ⟨⟩
    decide
  unfold key at h
  split_ifs at h with hk hk' hk'
  · obtain ⟨hk, hr⟩ := append_inj_of_forall (isBare_iff.mp hk).2 (isBare_iff.mp hk').2 (hblank r)
      (hblank r') h
    exact ⟨String.toList_injective hk, (List.cons.inj hr).2⟩
  · rw [quote, String.toList_ofList] at h
    exact absurd h (hquote hk)
  · rw [quote, String.toList_ofList] at h
    exact absurd h.symm (hquote hk')
  · rw [quote, quote, String.toList_ofList, String.toList_ofList] at h
    obtain ⟨hk, hr⟩ := Quoted.encode_append_inj h
    exact ⟨hk, (List.cons.inj hr).2⟩

/-! ### Values -/

theorem delimited_entry {e : String × Node} (he : Delimited (fun v => (literal v).toList) e.2) :
    Delimited (fun e => (entry e).toList) e := by
  rintro ⟨k', v'⟩ r r' hr hr' h
  obtain ⟨k, v⟩ := e
  simp only [entry, String.toList_append, List.append_assoc] at h
  obtain ⟨rfl, hrest⟩ := key_append_inj h
  obtain ⟨rfl, hr⟩ := he hr hr' (List.cons.inj (List.cons.inj hrest).2).2
  exact ⟨rfl, hr⟩

theorem delimited_scalar (ho : v.object? = none) (ha : v.array? = none) :
    Delimited (fun v => (literal v).toList) v := by
  intro w r r' hr hr' h
  have hkind := kind_eq_of_append_eq h
  cases v with
  | null => cases w <;> cases hkind; exact ⟨rfl, List.append_cancel_left h⟩
  | bool b => cases w <;> cases hkind; exact ⟨rfl, List.append_cancel_left h⟩
  | number m =>
    cases w <;> cases hkind
    simp only [literal, String.toList_ofList] at h
    obtain ⟨rfl, hr⟩ := Number.chars_append_inj hr hr' h
    exact ⟨rfl, hr⟩
  | string s =>
    cases w <;> cases hkind
    simp only [literal, quote, String.toList_ofList] at h
    obtain ⟨rfl, hr⟩ := Quoted.encode_append_inj h
    exact ⟨rfl, hr⟩
  | array => cases ha
  | object => cases ho

theorem array_ne_nil_array (x : Node) (xs : List Node) :
    (literal (.array [])).toList ++ r ≠ (literal (.array (x :: xs))).toList ++ r' := by
  obtain ⟨c, cs, hx, -, hclose⟩ := exists_cons_literal x
  rw [toList_literal_array, hx]
  intro h
  exact hclose (List.cons.inj (List.cons.inj h).2).1.symm

theorem object_ne_nil_object (e : String × Node) (fs : Object) :
    (literal (.object [])).toList ++ r ≠ (literal (.object (e :: fs))).toList ++ r' := by
  rw [toList_literal_object]
  intro h
  exact absurd (List.cons.inj (List.cons.inj h).2).1 (by decide)

theorem delimited_array {xs : List Node}
    (hxs : ∀ x ∈ xs, Delimited (fun v => (literal v).toList) x) :
    Delimited (fun v => (literal v).toList) (.array xs) := by
  intro w r r' _ _ h
  have hkind := kind_eq_of_append_eq h
  cases w with
  | array ys =>
    match xs, ys with
    | [], [] => exact ⟨rfl, List.append_cancel_left h⟩
    | [], y :: ys => exact absurd h (array_ne_nil_array y ys)
    | x :: xs, [] => exact absurd h.symm (array_ne_nil_array x xs)
    | x :: xs, y :: ys =>
      simp only [toList_literal_array, List.cons_append, List.append_assoc, List.nil_append,
        List.cons.injEq, true_and] at h
      obtain ⟨hitems, hr⟩ := parts_append_inj hxs (by decide) (fun _ => .cons (by decide)) h
      exact ⟨congrArg Node.array hitems, hr⟩
  | _ => cases hkind

theorem delimited_object {fs : Object}
    (hfs : ∀ e ∈ fs, Delimited (fun v => (literal v).toList) e.2) :
    Delimited (fun v => (literal v).toList) (.object fs) := by
  intro w r r' _ _ h
  have hkind := kind_eq_of_append_eq h
  cases w with
  | object gs =>
    match fs, gs with
    | [], [] => exact ⟨rfl, List.append_cancel_left h⟩
    | [], e :: gs => exact absurd h (object_ne_nil_object e gs)
    | e :: fs, [] => exact absurd h.symm (object_ne_nil_object e fs)
    | e :: fs, e' :: gs =>
      simp only [toList_literal_object, List.cons_append, List.append_assoc, List.nil_append,
        List.cons.injEq, true_and] at h
      obtain ⟨hfields, hr⟩ := parts_append_inj (fun e he => delimited_entry (hfs e he))
        (by decide) (fun _ => .cons (by decide)) h
      exact ⟨congrArg Node.object hfields, (List.cons.inj hr).2⟩
  | _ => cases hkind

theorem delimited_literal (v : Node) : Delimited (fun v => (literal v).toList) v := by
  induction v using Node.induct with
  | scalar v ho ha => exact delimited_scalar ho ha
  | array xs ih => exact delimited_array ih
  | object fs ih => exact delimited_object fun e => ih e.1 e.2

/-- The literal of a value is that of no other, and the keys of a table keep their order. -/
theorem literal_inj {v w : Node} : literal v = literal w ↔ v = w := by
  refine ⟨fun h => ?_, congrArg literal⟩
  have hend : Numeral.Ends [] := fun _ h => by cases h
  exact (delimited_literal v hend hend (congrArg (fun s => s.toList ++ []) h)).1

end Toml

end ConfigSchema
