import ConfigSchema.Docs.Naming
import ConfigSchema.Proofs.Schema.References
import Mathlib.Data.List.Basic
import Mathlib.Data.List.Flatten
import Mathlib.Data.List.Nodup

/-!
# Chains of references

A chain leads from a definition to one of the fields that stand for it: it begins with a property of
the definition, goes on from a property that refers to a definition to a property of that one, opens
no definition twice, and ends with a property that stands for itself (`FieldChain`). `chains` lists
the chains that begin with a property: all of them (`mem_chains`) and the one first that has the
earlier property where two of them part (`pairwise_chains`), so none of them twice. A definition
that is open on the way cannot be opened again, so the list is finite on recursive definitions too.
-/

namespace ConfigSchema

/-- An entry in the properties of the definition `owner`. -/
structure Property where
  owner : String
  name : String
  field : Node

namespace Property

/-- What the field says; a field that is no object says nothing. -/
def schema (p : Property) : Object := p.field.object?.getD []

/-- The name of the field in the manifest. -/
def key (p : Property) : String := Naming.external p.name p.field

/-- The definition that the field refers to. -/
def target? (p : Property) : Option String := p.schema.reference?.bind Schema.targetName?

end Property

namespace Schema

variable {s : Schema}

/-- The properties of the definition of that name. -/
def propertiesOf? (s : Schema) (name : String) : Option Object :=
  ((s.definition? name).bind Node.object?).bind Object.properties?

def Declares (s : Schema) (p : Property) : Prop :=
  ∃ properties, s.propertiesOf? p.owner = some properties ∧
    Fields.get? properties p.name = some p.field

/-- `p` comes before `q` in the properties of one definition. -/
def Earlier (s : Schema) (p q : Property) : Prop :=
  p.owner = q.owner ∧ ∃ properties, s.propertiesOf? p.owner = some properties ∧
    (Fields.keys properties).idxOf p.name < (Fields.keys properties).idxOf q.name

/-- The property stands for itself while the definitions in `opened` are open: it refers to no
definition, or to one that has no properties or is open. -/
inductive Leaf (s : Schema) (opened : List String) (p : Property) : Prop
  | plain (h : p.schema.reference? = none)
  | linked {target : String} {definition : Object} (htarget : p.target? = some target)
      (hdefinition : s.definition? target = some (.object definition))
      (h : definition.properties? = none ∨ target ∈ opened)

/-- A chain of references from the definition `name` to a field that stands for it. -/
structure FieldChain (s : Schema) (name : String) (chain : List Property) : Prop where
  start : chain.head?.map Property.owner = some name
  declared : ∀ p ∈ chain, s.Declares p
  linked : chain.IsChain fun p q => p.target? = some q.owner
  simple : (chain.map Property.owner).Nodup
  leaf : ∀ p, chain.getLast? = some p → s.Leaf (chain.map Property.owner) p

/-! ### What a property refers to -/

theorem propertiesOf?_eq {name : String} {definition : Object}
    (h : s.definition? name = some (.object definition)) :
    s.propertiesOf? name = definition.properties? := by
  rw [propertiesOf?, h]
  rfl

/-- The definitions that are not open. -/
def closed (s : Schema) (opened : List String) : List String :=
  (Fields.keys s.definitions).filter fun name => name ∉ opened

theorem closed_nil : s.closed [] = Fields.keys s.definitions := by simp [closed]

theorem closed_append (opened : List String) (target : String) :
    s.closed (opened ++ [target]) = (s.closed opened).filter fun name => name ≠ target := by
  rw [closed, closed, List.filter_filter]
  refine List.filter_congr fun name _ => ?_
  simp [and_comm]

theorem length_closed_lt {opened : List String} {target : String}
    (htarget : target ∈ Fields.keys s.definitions) (hnew : target ∉ opened) :
    (s.closed (opened ++ [target])).length < (s.closed opened).length := by
  rw [closed_append, List.length_filter_lt_length_iff_exists]
  exact ⟨target, List.mem_filter.mpr ⟨htarget, by simpa using hnew⟩, by simp⟩

/-- The chains that begin with a property. -/
def chains (s : Schema) (opened : List String) (p : Property) : List (List Property) :=
  match p.schema.reference? with
  | none => [[p]]
  | some reference =>
    match _h : s.resolveReference reference with
    | .error _ => []
    | .ok (target, definition) =>
      match definition.properties? with
      | none => [[p]]
      | some properties =>
        if _hopen : target ∈ opened then [[p]]
        else
          (properties.flatMap fun e => s.chains (opened ++ [target]) ⟨target, e.1, e.2⟩).map (p :: ·)
termination_by (s.closed opened).length
decreasing_by
  exact length_closed_lt (mem_keys_of_definition? (resolveReference_eq_ok_iff.mp _h).2) _hopen

section

variable {opened : List String} {p q : Property} {target : String} {properties : Object}

theorem exists_reference {definition : Object} (htarget : p.target? = some target)
    (hdefinition : s.definition? target = some (.object definition)) :
    ∃ reference, p.schema.reference? = some reference ∧
      s.resolveReference reference = .ok (target, definition) := by
  obtain ⟨reference, href, hname⟩ := Option.bind_eq_some_iff.mp htarget
  exact ⟨reference, href, resolveReference_eq_ok_iff.mpr ⟨hname, hdefinition⟩⟩

theorem target?_eq {reference : String} {definition : Object}
    (href : p.schema.reference? = some reference)
    (h : s.resolveReference reference = .ok (target, definition)) : p.target? = some target := by
  rw [Property.target?, href]
  exact (resolveReference_eq_ok_iff.mp h).1

theorem propertiesOf?_eq_some (h : s.propertiesOf? target = some properties) :
    ∃ definition : Object, s.definition? target = some (.object definition) ∧
      definition.properties? = some properties := by
  obtain ⟨definition, hdefinition, hproperties⟩ := Option.bind_eq_some_iff.mp h
  exact ⟨definition, Node.bind_object?_eq_some_iff.mp hdefinition, hproperties⟩

theorem chains_of_resolved {reference : String} {definition : Object}
    (href : p.schema.reference? = some reference)
    (hres : s.resolveReference reference = .ok (target, definition)) :
    s.chains opened p = match definition.properties? with
      | none => [[p]]
      | some properties =>
        if target ∈ opened then [[p]]
        else (properties.flatMap fun e =>
          s.chains (opened ++ [target]) ⟨target, e.1, e.2⟩).map (p :: ·) := by
  rw [chains, href]
  split
  · next h => cases h
  · next h =>
    cases h
    split
    · next he => rw [hres] at he; cases he
    · next hres' => rw [hres] at hres'; cases hres'; rfl

theorem chains_of_unresolved {reference : String} {e : SchemaError}
    (href : p.schema.reference? = some reference) (he : s.resolveReference reference = .error e) :
    s.chains opened p = [] := by
  rw [chains, href]
  split
  · next h => cases h
  · next h =>
    cases h
    split
    · rfl
    · next hres => rw [he] at hres; cases hres

theorem chains_of_leaf (h : s.Leaf opened p) : s.chains opened p = [[p]] := by
  rcases h with h | ⟨htarget, hdefinition, h⟩
  · rw [chains, h]
  · obtain ⟨reference, href, hres⟩ := exists_reference htarget hdefinition
    rw [chains_of_resolved href hres]
    rcases h with h | h
    · rw [h]
    · split
      · rfl
      · exact if_pos h

theorem chains_of_opens (htarget : p.target? = some target)
    (hproperties : s.propertiesOf? target = some properties) (hnew : target ∉ opened) :
    s.chains opened p = (properties.flatMap fun e =>
      s.chains (opened ++ [target]) ⟨target, e.1, e.2⟩).map (p :: ·) := by
  obtain ⟨definition, hdefinition, hps⟩ := propertiesOf?_eq_some hproperties
  obtain ⟨reference, href, hres⟩ := exists_reference htarget hdefinition
  rw [chains_of_resolved href hres, hps]
  exact if_neg hnew

/-- A property stands for itself, or its reference leads nowhere, or it opens a definition. -/
theorem chains_induct {motive : List String → Property → Prop}
    (leaf : ∀ opened p, s.Leaf opened p → motive opened p)
    (unresolved : ∀ opened p reference e, p.schema.reference? = some reference →
      s.resolveReference reference = .error e → motive opened p)
    (opens : ∀ opened p target properties, p.target? = some target →
      s.propertiesOf? target = some properties → target ∉ opened →
      (∀ e : String × Node, motive (opened ++ [target]) ⟨target, e.1, e.2⟩) → motive opened p)
    (opened : List String) (p : Property) : motive opened p := by
  induction opened, p using chains.induct s with
  | case1 opened p hplain => exact leaf opened p (.plain hplain)
  | case2 opened p reference href e he => exact unresolved opened p reference e href he
  | case3 opened p reference href target definition hres hnone =>
    have hdefinition := (resolveReference_eq_ok_iff.mp hres).2
    exact leaf opened p (.linked (target?_eq href hres) hdefinition (.inl hnone))
  | case4 opened p reference href target definition hres properties hps hopen =>
    have hdefinition := (resolveReference_eq_ok_iff.mp hres).2
    exact leaf opened p (.linked (target?_eq href hres) hdefinition (.inr hopen))
  | case5 opened p reference href target definition hres properties hps hnew ih =>
    have hproperties : s.propertiesOf? target = some properties := by
      rw [propertiesOf?_eq (resolveReference_eq_ok_iff.mp hres).2, hps]
    exact opens opened p target properties (target?_eq href hres) hproperties hnew ih

theorem leaf_or_opens (s : Schema) (opened : List String) (p : Property) : s.Leaf opened p ∨
    (∃ reference e, p.schema.reference? = some reference ∧
      s.resolveReference reference = .error e) ∨
    ∃ target properties, p.target? = some target ∧
      s.propertiesOf? target = some properties ∧ target ∉ opened := by
  induction opened, p using @chains_induct s with
  | leaf opened p hleaf => exact .inl hleaf
  | unresolved opened p reference e href he => exact .inr (.inl ⟨reference, e, href, he⟩)
  | opens opened p target properties htarget hproperties hnew =>
    exact .inr (.inr ⟨target, properties, htarget, hproperties, hnew⟩)

/-! ### The chains that begin with a property -/

/-- `p :: rest` goes on as a chain does, with the definitions in `opened` open at `p`. -/
structure Unfolds (s : Schema) (opened : List String) (p : Property) (rest : List Property) :
    Prop where
  declared : ∀ q ∈ rest, s.Declares q
  linked : (p :: rest).IsChain fun p q => p.target? = some q.owner
  simple : (opened ++ rest.map Property.owner).Nodup
  leaf : ∀ q, (p :: rest).getLast? = some q → s.Leaf (opened ++ rest.map Property.owner) q

theorem unfolds_nil : s.Unfolds opened p [] ↔ opened.Nodup ∧ s.Leaf opened p := by
  constructor
  · rintro ⟨-, -, hsimple, hleaf⟩
    rw [List.map_nil, List.append_nil] at hsimple hleaf
    exact ⟨hsimple, hleaf p rfl⟩
  · rintro ⟨hsimple, hleaf⟩
    refine ⟨by simp, .singleton p, by simpa using hsimple, fun q hq => ?_⟩
    cases hq
    simpa using hleaf

theorem unfolds_cons {rest : List Property} : s.Unfolds opened p (q :: rest) ↔
    p.target? = some q.owner ∧ s.Declares q ∧ s.Unfolds (opened ++ [q.owner]) q rest := by
  have happend : opened ++ (q :: rest).map Property.owner =
      opened ++ [q.owner] ++ rest.map Property.owner := by simp
  constructor
  · rintro ⟨hdeclared, hlinked, hsimple, hleaf⟩
    obtain ⟨hq, hrest⟩ := List.forall_mem_cons.mp hdeclared
    obtain ⟨hpq, hlinked⟩ := List.isChain_cons_cons.mp hlinked
    rw [happend] at hsimple hleaf
    exact ⟨hpq, hq, hrest, hlinked, hsimple, hleaf⟩
  · rintro ⟨hpq, hq, hdeclared, hlinked, hsimple, hleaf⟩
    refine ⟨List.forall_mem_cons.mpr ⟨hq, hdeclared⟩,
      List.isChain_cons_cons.mpr ⟨hpq, hlinked⟩, ?_, ?_⟩
    · rwa [happend]
    · rw [happend]; exact hleaf

theorem fieldChain_iff {name : String} {chain : List Property} : s.FieldChain name chain ↔
    ∃ p rest, chain = p :: rest ∧ p.owner = name ∧ s.Declares p ∧ s.Unfolds [name] p rest := by
  constructor
  · rintro ⟨hstart, hdeclared, hlinked, hsimple, hleaf⟩
    cases chain with
    | nil => cases hstart
    | cons p rest =>
      cases hstart
      obtain ⟨hp, hrest⟩ := List.forall_mem_cons.mp hdeclared
      exact ⟨p, rest, rfl, rfl, hp, hrest, hlinked, hsimple, hleaf⟩
  · rintro ⟨p, rest, rfl, rfl, hp, hrest, hlinked, hsimple, hleaf⟩
    exact ⟨rfl, List.forall_mem_cons.mpr ⟨hp, hrest⟩, hlinked, hsimple, hleaf⟩

/-- A property that stands for itself begins no longer chain. -/
theorem Leaf.eq_nil (hleaf : s.Leaf opened p) {rest : List Property}
    (h : s.Unfolds opened p rest) : rest = [] := by
  cases rest with
  | nil => rfl
  | cons q rest =>
    obtain ⟨hpq, ⟨properties, hproperties, -⟩, h⟩ := unfolds_cons.mp h
    rcases hleaf with hplain | ⟨htarget, hdefinition, hl⟩
    · rw [Property.target?, hplain] at hpq
      cases hpq
    · rw [htarget] at hpq
      cases hpq
      rw [propertiesOf?_eq hdefinition] at hproperties
      rcases hl with hnone | hopen
      · rw [hnone] at hproperties
        cases hproperties
      · have hnodup := (List.nodup_append.mp h.simple).1
        have hnew := (List.nodup_append.mp hnodup).2.2
        exact absurd rfl (hnew _ hopen _ (List.mem_singleton_self _))

theorem distinct_propertiesOf? (h : s.propertiesOf? target = some properties) :
    Fields.Distinct properties := by
  obtain ⟨definition, hdefinition, hproperties⟩ := propertiesOf?_eq_some h
  have hdef : (Node.object definition).Distinct := everywhere_definition s.distinct hdefinition
  have hps : (Node.object properties).Distinct := Node.Everywhere.object? hdef hproperties
  exact hps.keys

theorem unfolds_of_opens (htarget : p.target? = some target)
    (hproperties : s.propertiesOf? target = some properties) (hnew : target ∉ opened)
    {rest : List Property} : s.Unfolds opened p rest ↔ ∃ name field rest',
      rest = ⟨target, name, field⟩ :: rest' ∧ Fields.get? properties name = some field ∧
        s.Unfolds (opened ++ [target]) ⟨target, name, field⟩ rest' := by
  constructor
  · intro h
    cases rest with
    | nil =>
      rcases (unfolds_nil.mp h).2 with hplain | ⟨htarget', hdefinition, hl⟩
      · rw [Property.target?, hplain] at htarget
        cases htarget
      · rw [htarget] at htarget'
        cases htarget'
        rw [propertiesOf?_eq hdefinition] at hproperties
        rcases hl with hnone | hopen
        · rw [hnone] at hproperties
          cases hproperties
        · exact absurd hopen hnew
    | cons q rest =>
      obtain ⟨hpq, ⟨properties', hproperties', hq⟩, hrest⟩ := unfolds_cons.mp h
      rw [htarget] at hpq
      cases hpq
      rw [hproperties] at hproperties'
      cases hproperties'
      exact ⟨q.name, q.field, rest, rfl, hq, hrest⟩
  · rintro ⟨name, field, rest, rfl, hget, hrest⟩
    exact unfolds_cons.mpr ⟨htarget, ⟨properties, hproperties, hget⟩, hrest⟩

theorem not_unfolds_of_unresolved {reference : String} {e : SchemaError}
    (href : p.schema.reference? = some reference)
    (he : s.resolveReference reference = .error e) (rest : List Property) :
    ¬ s.Unfolds opened p rest := by
  have hnot (target : String) (definition : Object) (htarget : p.target? = some target) :
      s.definition? target ≠ some (.object definition) := by
    intro hdefinition
    obtain ⟨reference', href', hres⟩ := exists_reference htarget hdefinition
    rw [href] at href'
    cases href'
    rw [he] at hres
    cases hres
  intro h
  cases rest with
  | nil =>
    rcases (unfolds_nil.mp h).2 with hplain | ⟨htarget, hdefinition, -⟩
    · rw [href] at hplain
      cases hplain
    · exact hnot _ _ htarget hdefinition
  | cons q rest =>
    obtain ⟨hpq, ⟨properties, hproperties, -⟩, -⟩ := unfolds_cons.mp h
    obtain ⟨definition, hdefinition, -⟩ := propertiesOf?_eq_some hproperties
    exact hnot _ _ hpq hdefinition

theorem nodup_append_singleton (hopened : opened.Nodup) (hnew : target ∉ opened) :
    (opened ++ [target]).Nodup := by
  rw [List.nodup_append]
  refine ⟨hopened, List.nodup_singleton _, fun a ha b hb hab => hnew ?_⟩
  rwa [← List.mem_singleton.mp hb, ← hab]

/-- Each list of the chains is one, and every chain is listed. -/
theorem mem_chains (hopened : opened.Nodup) {chain : List Property} :
    chain ∈ s.chains opened p ↔ ∃ rest, chain = p :: rest ∧ s.Unfolds opened p rest := by
  induction opened, p using @chains_induct s generalizing chain with
  | leaf opened p hleaf =>
    rw [chains_of_leaf hleaf, List.mem_singleton]
    constructor
    · rintro rfl
      exact ⟨[], rfl, unfolds_nil.mpr ⟨hopened, hleaf⟩⟩
    · rintro ⟨rest, rfl, hrest⟩
      rw [hleaf.eq_nil hrest]
  | unresolved opened p reference e href he =>
    rw [chains_of_unresolved href he]
    constructor
    · intro h; cases h
    · rintro ⟨rest, -, hrest⟩
      exact absurd hrest (not_unfolds_of_unresolved href he rest)
  | opens opened p target properties htarget hproperties hnew ih =>
    have hdistinct := distinct_propertiesOf? hproperties
    have hopened' := nodup_append_singleton hopened hnew
    rw [chains_of_opens htarget hproperties hnew]
    simp only [List.mem_map, List.mem_flatMap, ih _ hopened',
      unfolds_of_opens htarget hproperties hnew]
    constructor
    · rintro ⟨_, ⟨e, he, rest, rfl, hrest⟩, rfl⟩
      exact ⟨_, rfl, e.1, e.2, rest, rfl, Fields.get?_of_mem hdistinct he, hrest⟩
    · rintro ⟨_, rfl, name, field, rest, rfl, hget, hrest⟩
      exact ⟨_, ⟨(name, field), Fields.mem_of_get? hget, rest, rfl, hrest⟩, rfl⟩

/-! ### Their order -/

theorem pairwise_idxOf {names : List String} (h : names.Nodup) :
    names.Pairwise fun a b => names.idxOf a < names.idxOf b := by
  rw [List.pairwise_iff_getElem]
  intro i j hi hj hij
  rwa [h.idxOf_getElem i hi, h.idxOf_getElem j hj]

/-- Lists for the properties of a definition, taken one after the other, are in order if each of
them is. -/
theorem pairwise_flatMap_properties (hproperties : s.propertiesOf? target = some properties)
    {lists : String × Node → List (List Property)}
    (hhead : ∀ e, ∀ chain ∈ lists e, ∃ rest, chain = ⟨target, e.1, e.2⟩ :: rest)
    (hlists : ∀ e, (lists e).Pairwise (List.Lex s.Earlier)) :
    (properties.flatMap lists).Pairwise (List.Lex s.Earlier) := by
  rw [List.pairwise_flatMap]
  refine ⟨fun e _ => hlists e, ?_⟩
  have hkeys := pairwise_idxOf (distinct_propertiesOf? hproperties)
  refine (List.pairwise_map.mp hkeys).imp fun {e e'} hlt c hc c' hc' => ?_
  obtain ⟨rest, rfl⟩ := hhead e c hc
  obtain ⟨rest', rfl⟩ := hhead e' c' hc'
  exact .rel ⟨rfl, properties, hproperties, hlt⟩

/-- Of two chains, the one comes first that has the earlier property where they part. -/
theorem pairwise_chains (hopened : opened.Nodup) :
    (s.chains opened p).Pairwise (List.Lex s.Earlier) := by
  induction opened, p using @chains_induct s with
  | leaf opened p hleaf =>
    rw [chains_of_leaf hleaf]
    exact List.pairwise_singleton ..
  | unresolved opened p reference e href he =>
    rw [chains_of_unresolved href he]
    exact .nil
  | opens opened p target properties htarget hproperties hnew ih =>
    have hopened' := nodup_append_singleton hopened hnew
    rw [chains_of_opens htarget hproperties hnew, List.pairwise_map]
    refine (pairwise_flatMap_properties hproperties (fun e chain hchain => ?_)
      fun e => ih e hopened').imp .cons
    obtain ⟨rest, hrest, -⟩ := (mem_chains hopened').mp hchain
    exact ⟨rest, hrest⟩

end

/-! ### The chains of a definition -/

section

variable {name : String}

/-- The chains that begin at a definition. -/
def fieldChains (s : Schema) (name : String) : List (List Property) :=
  ((s.propertiesOf? name).getD []).flatMap fun e => s.chains [name] ⟨name, e.1, e.2⟩

theorem fieldChains_eq {definition : Object} (h : s.definition? name = some (.object definition)) :
    s.fieldChains name =
      definition.properties.flatMap fun e => s.chains [name] ⟨name, e.1, e.2⟩ := by
  rw [fieldChains, propertiesOf?_eq h]
  rfl

theorem mem_fieldChains {chain : List Property} :
    chain ∈ s.fieldChains name ↔ s.FieldChain name chain := by
  rw [fieldChains, List.mem_flatMap, fieldChain_iff]
  simp only [mem_chains (List.nodup_singleton name)]
  cases h : s.propertiesOf? name with
  | none =>
    constructor
    · rintro ⟨e, he, -⟩
      cases he
    · rintro ⟨p, rest, -, rfl, ⟨properties, hproperties, -⟩, -⟩
      rw [h] at hproperties
      cases hproperties
  | some properties =>
    have hdistinct := distinct_propertiesOf? h
    constructor
    · rintro ⟨e, he, rest, rfl, hrest⟩
      exact ⟨_, rest, rfl, rfl, ⟨properties, h, Fields.get?_of_mem hdistinct he⟩, hrest⟩
    · rintro ⟨p, rest, rfl, rfl, ⟨properties', hproperties, hp⟩, hrest⟩
      rw [h] at hproperties
      cases hproperties
      exact ⟨(p.name, p.field), Fields.mem_of_get? hp, rest, rfl, hrest⟩

theorem pairwise_fieldChains : (s.fieldChains name).Pairwise (List.Lex s.Earlier) := by
  have hopened := List.nodup_singleton name
  rw [fieldChains]
  cases h : s.propertiesOf? name with
  | none => exact .nil
  | some properties =>
    refine pairwise_flatMap_properties h (fun e chain hchain => ?_)
      fun e => pairwise_chains hopened
    obtain ⟨rest, hrest, -⟩ := (mem_chains hopened).mp hchain
    exact ⟨rest, hrest⟩

theorem not_lex_self (chain : List Property) : ¬ List.Lex s.Earlier chain chain := by
  intro h
  induction chain with
  | nil => cases h
  | cons p chain ih =>
    cases h with
    | rel h => obtain ⟨-, _, -, hlt⟩ := h; exact absurd hlt (Nat.lt_irrefl _)
    | cons h => exact ih h

theorem nodup_fieldChains : (s.fieldChains name).Nodup := by
  refine pairwise_fieldChains.imp fun {chain chain'} hlex heq => ?_
  rw [heq] at hlex
  exact not_lex_self chain' hlex

end

end Schema

end ConfigSchema
