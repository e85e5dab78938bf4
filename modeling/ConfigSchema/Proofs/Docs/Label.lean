import ConfigSchema.Docs.Label
import ConfigSchema.Proofs.Result

/-!
# Type labels, case by case

What the label of a field is made of: of the definition that it refers to (`label_of_reference`), of
the labels of its options (`label_of_options`), or else of the names of its type and, for an array,
the label of its items (`label_of_names`).
-/

namespace ConfigSchema

namespace Object

variable {s : Schema} {o : Object}

/-- The names of the type other than null. -/
def realNames (o : Object) : List String := o.typeNames.filter (· ≠ "null")

theorem label_of_reference {reference : String} (href : o.reference? = some reference) :
    o.label s = (s.resolveReference reference).map fun r => .link r.1 := by
  rw [label, href]
  show (s.resolveReference reference >>= _) = _
  cases s.resolveReference reference <;> rfl

theorem mapM_label_attach (s : Schema) (os : List Object) :
    (os.attach.mapM fun option => label s option.1) = os.mapM (label s) := by
  rw [List.mapM_subtype fun _ _ => rfl, List.unattach_attach]

theorem label_of_options (href : o.reference? = none) (hoptions : o.typeOptions ≠ []) :
    o.label s = (o.typeOptions.mapM (label s)).map .options := by
  rw [label, href]
  show (o.typeOptions.attach.mapM _ >>= _) = _
  rw [mapM_label_attach]
  cases hlabels : o.typeOptions.mapM (label s) with
  | error e => rfl
  | ok labels =>
    have hlength := (Result.mapM_eq_ok_iff.mp hlabels).length_eq
    cases labels with
    | nil => exact absurd (List.length_eq_zero_iff.mp hlength) hoptions
    | cons => rfl

/-- The label of a field without options, given the names of its type and the label of its items. -/
def namesLabel : List String → Option (Except SchemaError Label) → Except SchemaError Label
  | [], _ => .ok .unknown
  | ["array"], item? => (item?.getD (.ok .unknown)).map .list
  | names, _ => .ok (.names names)

theorem namesLabel_congr {names : List String} {item? item?' : Option (Except SchemaError Label)}
    (h : names = ["array"] → item? = item?') : namesLabel names item? = namesLabel names item?' := by
  unfold namesLabel
  split
  · rfl
  · rw [h rfl]
  · rfl

theorem map_namesLabel_congr {β : Type} {view : Label → β} {names : List String}
    {items? : Option Object} {read read' : Object → Except SchemaError Label}
    (hlist : ∀ l l', view l = view l' → view (.list l) = view (.list l'))
    (h : names = ["array"] → ∀ items, items? = some items →
      (read items).map view = (read' items).map view) :
    (namesLabel names (items?.map read)).map view =
      (namesLabel names (items?.map read')).map view := by
  unfold namesLabel
  split
  · rfl
  · cases items? with
    | none => rfl
    | some items =>
      rw [Result.map_map, Result.map_map]
      exact Result.map_congr_of_map hlist (h rfl items rfl)
  · rfl

theorem namesLabel_of_ne {names : List String} {item? : Option (Except SchemaError Label)}
    (hnil : names ≠ []) (harray : names ≠ ["array"]) :
    namesLabel names item? = .ok (.names names) := by
  unfold namesLabel
  split
  · exact absurd rfl hnil
  · exact absurd rfl harray
  · rfl

theorem namesLabel_eq_ok {names : List String} {item? : Option (Except SchemaError Label)}
    {l : Label} (h : namesLabel names item? = .ok l) : l = .unknown ∨ l = .names names ∨
      ∃ item, l = .list item ∧ (item? = some (.ok item) ∨ item = .unknown) := by
  unfold namesLabel at h
  split at h
  · cases h
    exact .inl rfl
  · obtain ⟨item, hitem, rfl⟩ := Result.map_eq_ok_iff.mp h
    refine .inr (.inr ⟨item, rfl, ?_⟩)
    cases item? with
    | none => cases hitem; exact .inr rfl
    | some r => exact .inl (congrArg some hitem)
  · cases h
    exact .inr (.inl rfl)

theorem namesLabel_eq_error {names : List String} {item? : Option (Except SchemaError Label)}
    {e : SchemaError} (h : namesLabel names item? = .error e) : item? = some (.error e) := by
  unfold namesLabel at h
  split at h
  · cases h
  · cases item? with
    | none => cases h
    | some r => exact congrArg some (Result.map_eq_error_iff.mp h)
  · cases h

theorem label_of_names (href : o.reference? = none) (hoptions : o.typeOptions = []) :
    o.label s = namesLabel o.realNames (o.itemSchema?.map (label s)) := by
  rw [label, href]
  show (o.typeOptions.attach.mapM _ >>= _) = _
  rw [mapM_label_attach, hoptions]
  show (Except.ok [] >>= _) = _
  rw [Result.ok_bind, if_neg (by decide), realNames]
  split
  · next hnames => rw [hnames]; rfl
  · next hnames =>
    rw [hnames]
    split
    · next items hitems =>
      rw [hitems]
      show (items.label s >>= _) = (items.label s).map _
      cases items.label s <;> rfl
    · next hitems => rw [hitems]; rfl
  · next hnil harray => exact (namesLabel_of_ne hnil harray).symm

end Object

end ConfigSchema
