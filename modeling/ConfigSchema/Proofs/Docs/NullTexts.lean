import ConfigSchema.Proofs.Docs.NullOptions

/-!
# Null in the texts of labels

The text of a label is put together from those of its parts. So deleting null leaves the text of a
label as it is if it does so for every object behind an `anyOf` of nothing but null that the label
is made of, and where there is only one such object, the text of the label tells whether that of the
object has changed (`Object.label_withoutNulls`): the two texts differ in nothing but pieces that
are exchanged (`Exchanged`).
-/

namespace ConfigSchema

/-! ### Pieces that are exchanged -/

variable {t t' u u' : String} {n : Nat}

/-- `u'` is `u` with `t'` in `n` places where `t` stands in `u`. -/
inductive Exchanged (t t' : String) : Nat → String → String → Prop
  | same (u : String) : Exchanged t t' 0 u u
  | piece : Exchanged t t' 1 t t'
  | append {m n : Nat} {u u' v v' : String} (hu : Exchanged t t' m u u')
      (hv : Exchanged t t' n v v') : Exchanged t t' (m + n) (u ++ v) (u' ++ v')

namespace Exchanged

theorem length_eq (h : Exchanged t t' n u u') :
    u'.length + n * t.length = u.length + n * t'.length := by
  induction h with
  | same u => omega
  | piece => omega
  | append _ _ ihu ihv =>
    rw [String.length_append, String.length_append, Nat.add_mul, Nat.add_mul]
    omega

/-- An exchange of different pieces is seen. -/
theorem eq_zero (h : Exchanged t t' n u u') (heq : u = u') (hne : t ≠ t') : n = 0 := by
  by_cases hlength : t.length = t'.length
  · induction h with
    | same u => rfl
    | piece => exact absurd heq hne
    | @append m n u u' v v' hu hv ihu ihv =>
      have hchars := congrArg String.toList heq
      rw [String.toList_append, String.toList_append] at hchars
      have hu' : u.toList.length = u'.toList.length := by
        have := hu.length_eq
        rw [hlength] at this
        simp only [String.length_toList]
        omega
      obtain ⟨hchars, hrest⟩ := List.append_inj hchars hu'
      rw [ihu (String.toList_injective hchars), ihv (String.toList_injective hrest)]
  · have hmul := h.length_eq
    rw [heq] at hmul
    have hmul : n * t.length = n * t'.length := by omega
    by_contra hn
    exact hlength (Nat.eq_of_mul_eq_mul_left (Nat.pos_of_ne_zero hn) hmul)

theorem around (before after : String) (h : Exchanged t t' n u u') :
    Exchanged t t' n (before ++ u ++ after) (before ++ u' ++ after) := by
  have h := ((same before).append h).append (same after)
  rwa [Nat.zero_add, Nat.add_zero] at h

/-- What is joined is exchanged where one of the parts is. -/
theorem intercalate_map {α β : Type} {write : β → String} {xs : List α} {ys ys' : List β}
    {R R' : α → β → Prop} {P : α → Prop} (separator : String) (hys : List.Forall₂ R xs ys)
    (hys' : List.Forall₂ R' xs ys') (h : ∀ x ∈ xs, ∀ y y', R x y → R' x y' →
      ∃ n, Exchanged t t' n (write y) (write y') ∧ (P x → n ≠ 0)) :
    ∃ n, Exchanged t t' n (separator.intercalate (ys.map write))
      (separator.intercalate (ys'.map write)) ∧ ((∃ x ∈ xs, P x) → n ≠ 0) := by
  induction hys generalizing ys' with
  | nil =>
    cases hys'
    exact ⟨0, .same _, by simp⟩
  | @cons x y xs ys hy hys ih =>
    cases hys' with
    | @cons _ y' _ ys' hy' hys' =>
      obtain ⟨hx, hxs⟩ := List.forall_mem_cons.mp h
      obtain ⟨m, hm, hmne⟩ := hx y y' hy hy'
      obtain ⟨n, hn, hnne⟩ := ih hys' hxs
      refine ⟨m + n, ?_, ?_⟩
      · cases hys with
        | nil =>
          cases hys'
          simpa using hm.append hn
        | cons =>
          cases hys'
          simp only [List.map_cons, String.intercalate_cons_cons] at hn ⊢
          exact (hm.append (.same separator)).append hn
      · rintro ⟨z, hz, hP⟩
        rcases List.mem_cons.mp hz with rfl | hz
        · exact Nat.ne_of_gt (Nat.add_pos_left (Nat.pos_of_ne_zero (hmne hP)) n)
        · exact Nat.ne_of_gt (Nat.add_pos_right m (Nat.pos_of_ne_zero (hnne ⟨z, hz, hP⟩)))

end Exchanged

theorem Label.texts_eq_map (ls : List Label) : texts ls = ls.map text := by
  induction ls with
  | nil => rfl
  | cons l ls ih => rw [texts, ih, List.map_cons]

namespace Object

variable {s : Schema} {f p : Object} {l l' m m' : Label}

/-- The text of a field's label. -/
def labelText (s : Schema) (field : Object) : Except SchemaError String :=
  (field.label s).map Label.text

theorem labelText_withoutNulls
    (h : ∀ p, f.Sees p → p.Masked → p.withoutNulls.labelText s = p.labelText s) :
    f.withoutNulls.labelText s = f.labelText s := by
  refine map_label_withoutNulls (fun l l' h => ?_) (fun ls ls' h => ?_) h
  · rw [Label.text, h, Label.text]
  · rw [Label.text, Label.texts_eq_map, h, ← Label.texts_eq_map, Label.text]

/-! ### One object behind null -/

section

variable {q : Object}

theorem reads_iff_of_options (href : f.reference? = none) (hoptions : f.typeOptions ≠ []) :
    f.Reads q ↔ q ∈ f.typeOptions := by
  constructor
  · rintro (⟨-, hq⟩ | ⟨-, hnil, -, -⟩)
    · exact hq
    · exact absurd hnil hoptions
  · exact .option href

theorem reads_iff_of_names (href : f.reference? = none) (hoptions : f.typeOptions = []) :
    f.Reads q ↔ f.realNames = ["array"] ∧ f.itemSchema? = some q := by
  constructor
  · rintro (⟨-, hq⟩ | ⟨-, -, hnames, hitems⟩)
    · exact absurd hoptions (List.ne_nil_of_mem hq)
    · exact ⟨hnames, hitems⟩
  · rintro ⟨hnames, hitems⟩
    exact .item href hoptions hnames hitems

theorem Reads.sizeOf_lt (h : f.Reads q) : sizeOf q < sizeOf f := by
  cases h with
  | option _ hq => exact sizeOf_lt_of_mem_typeOptions hq
  | item _ _ _ hitems => exact sizeOf_lt_of_object? hitems

/-- The labels of a field with and without null are made of the same parts in the same way. -/
theorem labels_cases (hf : ¬ f.Masked) (hl : f.label s = .ok l)
    (hl' : f.withoutNulls.label s = .ok l') :
    (l' = l ∧ ∀ q, ¬ f.Reads q) ∨
    (∃ items k k', l = .list k ∧ l' = .list k' ∧ items.label s = .ok k ∧
      items.withoutNulls.label s = .ok k' ∧ ∀ q, f.Reads q ↔ q = items) ∨
    ∃ ls ls', l = .options ls ∧ l' = .options ls' ∧
      List.Forall₂ (fun q k => q.label s = .ok k) f.typeOptions ls ∧
      List.Forall₂ (fun q k => q.withoutNulls.label s = .ok k) f.typeOptions ls' ∧
      ∀ q, f.Reads q ↔ q ∈ f.typeOptions := by
  cases href : f.reference? with
  | some reference =>
    rw [label_of_reference href] at hl
    rw [label_of_reference ((reference?_withoutNulls f).trans href), hl] at hl'
    refine .inl ⟨(Except.ok.inj hl').symm, ?_⟩
    rintro q (⟨hnone, -⟩ | ⟨hnone, -⟩) <;> cases href.symm.trans hnone
  | none =>
    by_cases hoptions : f.typeOptions = []
    · have hreads (q : Object) := @reads_iff_of_names f q href hoptions
      rw [label_of_names href hoptions] at hl
      rw [label_withoutNulls_of_names href hf hoptions] at hl'
      by_cases harray : f.realNames = ["array"] ∧ f.itemSchema?.isSome = true
      · obtain ⟨items, hitems⟩ := Option.isSome_iff_exists.mp harray.2
        rw [harray.1, hitems] at hl hl'
        obtain ⟨k, hk, rfl⟩ := Result.map_eq_ok_iff.mp hl
        obtain ⟨k', hk', rfl⟩ := Result.map_eq_ok_iff.mp hl'
        refine .inr (.inl ⟨items, k, k', rfl, rfl, hk, hk', fun q => ?_⟩)
        rw [hreads, hitems, Option.some.injEq]
        exact (and_iff_right harray.1).trans eq_comm
      · have hitems (h : f.realNames = ["array"]) : f.itemSchema?.map (label s) =
            f.itemSchema?.map fun p => label s p.withoutNulls := by
          rw [Option.not_isSome_iff_eq_none.mp fun hsome => harray ⟨h, hsome⟩]
          rfl
        rw [← namesLabel_congr hitems, hl] at hl'
        refine .inl ⟨(Except.ok.inj hl').symm, fun q hread => harray ?_⟩
        obtain ⟨hnames, hq⟩ := (hreads q).mp hread
        exact ⟨hnames, Option.isSome_of_eq_some hq⟩
    · obtain ⟨ls, hls, rfl⟩ := Result.map_eq_ok_iff.mp
        ((label_of_options href hoptions).symm.trans hl)
      obtain ⟨ls', hls', rfl⟩ := Result.map_eq_ok_iff.mp
        ((label_withoutNulls_of_options href hf hoptions).symm.trans hl')
      exact .inr (.inr ⟨ls, ls', rfl, rfl, Result.mapM_eq_ok_iff.mp hls,
        Result.mapM_eq_ok_iff.mp hls', fun q => reads_iff_of_options href hoptions⟩)

theorem Reads.exists_labels (hread : f.Reads q) (hf : ¬ f.Masked) (hl : f.label s = .ok l)
    (hl' : f.withoutNulls.label s = .ok l') :
    ∃ m m', q.label s = .ok m ∧ q.withoutNulls.label s = .ok m' := by
  obtain ⟨-, hnone⟩ | ⟨items, k, k', -, -, hk, hk', hreads⟩ | ⟨ls, ls', -, -, hls, hls', hreads⟩ :=
    labels_cases hf hl hl'
  · exact absurd hread (hnone q)
  · obtain rfl := (hreads q).mp hread
    exact ⟨k, k', hk, hk'⟩
  · obtain ⟨m, -, hm⟩ := Result.exists_of_mem hls ((hreads q).mp hread)
    obtain ⟨m', -, hm'⟩ := Result.exists_of_mem hls' ((hreads q).mp hread)
    exact ⟨m, m', hm, hm'⟩

end

theorem Sees.exists_labels (hp : f.Sees p) (hone : ∀ q, f.Sees q → q.Masked → q = p)
    (hl : f.label s = .ok l) (hl' : f.withoutNulls.label s = .ok l') :
    ∃ m m', p.label s = .ok m ∧ p.withoutNulls.label s = .ok m' := by
  induction hp using Relation.ReflTransGen.head_induction_on generalizing l l' with
  | refl => exact ⟨l, l', hl, hl'⟩
  | @head f q hread _ ih =>
    by_cases hf : f.Masked
    · rw [← hone f .refl hf]
      exact ⟨l, l', hl, hl'⟩
    · obtain ⟨m, m', hm, hm'⟩ := hread.exists_labels hf hl hl'
      exact ih (fun r hr => hone r (.head hread hr)) hm hm'

/-- If `p` is the only object behind null, the text of its label is exchanged wherever it comes up
in the text of `f`. -/
theorem exchanged_withoutNulls {f : Object} (hp : p.Masked) (hm : p.label s = .ok m)
    (hm' : p.withoutNulls.label s = .ok m') {l l' : Label}
    (hone : ∀ q, f.Sees q → q.Masked → q = p) (hl : f.label s = .ok l)
    (hl' : f.withoutNulls.label s = .ok l') :
    ∃ n, Exchanged m.text m'.text n l.text l'.text ∧ (f.Sees p → n ≠ 0) := by
  by_cases hf : f.Masked
  · obtain rfl := hone f .refl hf
    cases hl.symm.trans hm
    cases hl'.symm.trans hm'
    exact ⟨1, .piece, fun _ => Nat.one_ne_zero⟩
  have hread (hsees : f.Sees p) : ∃ q, f.Reads q ∧ q.Sees p :=
    hsees.cases_head.resolve_left fun heq => hf (heq ▸ hp)
  have hpart (q : Object) (hq : f.Reads q) (k k' : Label) (hk : q.label s = .ok k)
      (hk' : q.withoutNulls.label s = .ok k') :
      ∃ n, Exchanged m.text m'.text n k.text k'.text ∧ (q.Sees p → n ≠ 0) :=
    have := hq.sizeOf_lt
    exchanged_withoutNulls hp hm hm' (fun r hr => hone r (.head hq hr)) hk hk'
  obtain ⟨rfl, hnone⟩ | ⟨items, k, k', rfl, rfl, hk, hk', hreads⟩ |
    ⟨ls, ls', rfl, rfl, hls, hls', hreads⟩ := labels_cases hf hl hl'
  · refine ⟨0, .same _, fun hsees => ?_⟩
    obtain ⟨q, hq, -⟩ := hread hsees
    exact absurd hq (hnone q)
  · obtain ⟨n, hn, hne⟩ := hpart items ((hreads items).mpr rfl) k k' hk hk'
    refine ⟨n, hn.around "List[" "]", fun hsees => hne ?_⟩
    obtain ⟨q, hq, hp⟩ := hread hsees
    exact (hreads q).mp hq ▸ hp
  · obtain ⟨n, hn, hne⟩ := Exchanged.intercalate_map " | " hls hls' fun q hq k k' =>
      hpart q ((hreads q).mpr hq) k k'
    rw [Label.text, Label.text, Label.texts_eq_map, Label.texts_eq_map]
    refine ⟨n, hn, fun hsees => hne ?_⟩
    obtain ⟨q, hq, hp⟩ := hread hsees
    exact ⟨q, (hreads q).mp hq, hp⟩
termination_by sizeOf f

theorem labelText_withoutNulls_ne {text : String} (hsees : f.Sees p) (hp : p.Masked)
    (hone : ∀ q, f.Sees q → q.Masked → q = p) (hf : f.labelText s = .ok text)
    (hne : p.withoutNulls.labelText s ≠ p.labelText s) :
    f.withoutNulls.labelText s ≠ .ok text := by
  intro hf'
  obtain ⟨l, hl, rfl⟩ := Result.map_eq_ok_iff.mp hf
  obtain ⟨l', hl', htext⟩ := Result.map_eq_ok_iff.mp hf'
  obtain ⟨m, m', hm, hm'⟩ := hsees.exists_labels hone hl hl'
  obtain ⟨n, hn, hnne⟩ := exchanged_withoutNulls hp hm hm' hone hl hl'
  refine hnne hsees (hn.eq_zero htext.symm fun heq => hne ?_)
  rw [labelText, labelText, hm, hm']
  exact congrArg Except.ok heq.symm

/-- Deleting null from a field does not change its label, unless the label is made of that of an
object whose options are behind an `anyOf` of nothing but null. The text of the label stays the same
even then if the texts for these objects do, and it changes with the text for the object if there is
only one. -/
theorem label_withoutNulls (s : Schema) (f : Object) :
    ((∀ p, f.Sees p → ¬ p.Masked) → f.withoutNulls.label s = f.label s) ∧
    ((∀ p, f.Sees p → p.Masked → p.withoutNulls.labelText s = p.labelText s) →
      f.withoutNulls.labelText s = f.labelText s) ∧
    ∀ p text, f.Sees p → p.Masked → (∀ q, f.Sees q → q.Masked → q = p) →
      f.labelText s = .ok text → p.withoutNulls.labelText s ≠ p.labelText s →
      f.withoutNulls.labelText s ≠ .ok text :=
  ⟨label_withoutNulls_of_not_masked, labelText_withoutNulls, fun _ _ hsees hp hone hf hne =>
    labelText_withoutNulls_ne hsees hp hone hf hne⟩

/-- A list of texts or an integer, with null in every place. Its `oneOf` is not chosen. -/
def nullable : Object := [
  ("oneOf", .array [.object [("type", .string "boolean")], .object [("type", .string "null")]]),
  ("anyOf", .array [
    .object [("type", .string "null")],
    .object [("type", .array [.string "null", .string "array"]), ("items", .object [
      ("oneOf", .array [
        .object [("type", .string "string")],
        .object [("type", .string "null")]])])],
    .object [("type", .array [.string "integer", .string "null"])]])]

/-- An `anyOf` of null before an option. -/
def masked : Object := [
  ("anyOf", .array [.object [("type", .string "null")]]),
  ("oneOf", .array [.object [("type", .string "string")]])]

/-- A list whose items have their option behind null. -/
def maskedItems : Object := [("type", .string "array"), ("items", .object masked)]

/-- The option behind null is the type of the field besides. -/
def maskedString : Object := ("type", .string "string") :: masked

theorem not_reads (hnames : f.realNames ≠ ["array"]) (hoptions : f.typeOptions = []) {q : Object} :
    ¬ f.Reads q := by
  rintro (⟨-, hq⟩ | ⟨-, -, h, -⟩)
  · exact List.ne_nil_of_mem hq hoptions
  · exact hnames h

theorem label_withoutNulls_nullable :
    nullable.label .empty =
        .ok (.options [.list (.options [.names ["string"]]), .names ["integer"]]) ∧
      nullable.withoutNulls.label .empty = nullable.label .empty ∧
      maskedString.Masked ∧
      maskedString.withoutNulls.labelText .empty = maskedString.labelText .empty ∧
      maskedItems.labelText .empty = .ok "List[Unknown]" ∧
      maskedItems.withoutNulls.labelText .empty ≠ .ok "List[Unknown]" := by
  have hnullable : (Node.object nullable).Everywhere fun p => ¬ p.Masked := by decide
  have htext : maskedItems.labelText .empty = .ok "List[Unknown]" := by with_unfolding_all rfl
  refine ⟨by with_unfolding_all rfl, ?_, by decide, ?_, htext, ?_⟩
  · refine (label_withoutNulls .empty nullable).1 fun p hp => ?_
    exact (Node.everywhere_object.mp (hp.everywhere hnullable)).1
  · refine (label_withoutNulls .empty maskedString).2.1 fun p hp _ => ?_
    obtain rfl | ⟨q, hread, -⟩ := hp.cases_head
    · with_unfolding_all rfl
    · exact absurd hread (not_reads (by decide) rfl)
  · have hreads : maskedItems.Reads masked := .item rfl rfl (by decide) rfl
    refine (label_withoutNulls .empty maskedItems).2.2 masked _ (.single hreads) (by decide) ?_
      htext ?_
    · intro q hq hmasked
      obtain rfl | ⟨r, hread, hr⟩ := hq.cases_head
      · exact absurd hmasked (by decide)
      · cases ((reads_iff_of_names rfl rfl).mp hread).2
        exact (hr.cases_head.resolve_right fun ⟨_, h, _⟩ => not_reads (by decide) rfl h).symm
    · have hmasked : masked.labelText .empty = .ok "Unknown" := by with_unfolding_all rfl
      have hmasked' : masked.withoutNulls.labelText .empty = .ok "String" := by
        with_unfolding_all rfl
      rw [hmasked, hmasked']
      simp

/-- Deleting null can change the text of a label. -/
theorem not_label_withoutNulls : ¬ ∀ (s : Schema) (f : Object),
    (f.withoutNulls.label s).map Label.text = (f.label s).map Label.text := by
  intro h
  have hlabel : masked.label .empty = .ok .unknown := by with_unfolding_all rfl
  have hlabel' : masked.withoutNulls.label .empty = .ok (.options [.names ["string"]]) := by
    with_unfolding_all rfl
  have htext := h .empty masked
  rw [hlabel, hlabel'] at htext
  have htext := Except.ok.inj htext
  revert htext
  decide

end Object

end ConfigSchema
