import ConfigSchema.Proofs.Docs.Flattening
import ConfigSchema.Proofs.Docs.Lines
import ConfigSchema.Proofs.Docs.Outline

/-!
# The lines of a page

A page is printed block by block, so its lines are those of the blocks. What the schema says about
the sections of a page it says about the text, then: below the title stand the definitions of the
outline, and below each of them the fields that its chains of references lead to, under the path
that the chain gives them (`Schema.linesOf_page`).
-/

namespace ConfigSchema

/-- The lines of a block that ends with a line break. -/
def paragraph (text : String) : List String := linesOf text ++ [""]

theorem linesOf_append_break (text : String) : linesOf (text ++ "\n") = paragraph text := by
  have h := linesOf_append text ""
  rwa [String.append_empty] at h

theorem flatMap_linesOf_map_toList {α : Type} (o : Option α) (write : α → String) :
    (o.map write).toList.flatMap linesOf = o.toList.flatMap fun x => linesOf (write x) := by
  cases o <;> rfl

namespace FieldSection

theorem linesOf_text (f : FieldSection) : linesOf f.text =
    linesOf ("### `" ++ f.path ++ "`") ++ paragraph ("**Type:** " ++ f.label.text) ++
      (if f.required then paragraph "**Required:** Yes" else []) ++
      f.default?.toList.flatMap (fun d => paragraph ("**Default:** `" ++ Toml.display d ++ "`")) ++
      f.description?.toList.flatMap linesOf ++
      f.snippets.flatMap (fun snippet => linesOf snippet.text) ++ [""] := by
  have hne : f.lines ≠ [] := List.append_ne_nil_of_right_ne_nil _ (List.cons_ne_nil _ _)
  have hrequired : (if f.required then ["**Required:** Yes\n"] else []).flatMap linesOf =
      if f.required then paragraph "**Required:** Yes" else [] := by
    cases f.required <;> rfl
  have hdefault (d : Node) : linesOf ("**Default:** `" ++ Toml.display d ++ "`\n") =
      paragraph ("**Default:** `" ++ Toml.display d ++ "`") := by
    rw [← linesOf_append_break, @String.append_assoc _ "`" "\n"]
    rfl
  rw [text, linesOf_intercalate hne, lines]
  simp only [List.flatMap_append, flatMap_linesOf_map_toList, hrequired, hdefault,
    List.flatMap_map, List.flatMap_cons, List.flatMap_nil, List.append_nil, linesOf_append_break]
  rfl

end FieldSection

namespace DefinitionSection

/-- The lines of a definition's section. -/
def textLines (d : DefinitionSection) : List String :=
  linesOf ("## " ++ d.heading) ++ d.description?.toList.flatMap paragraph ++
    d.fields.flatMap fun f => linesOf f.text

theorem flatMap_linesOf_lines (d : DefinitionSection) : d.lines.flatMap linesOf = d.textLines := by
  simp only [lines, textLines, List.cons_append, List.flatMap_cons, List.flatMap_append,
    flatMap_linesOf_map_toList, List.flatMap_map, linesOf_append_break, List.append_assoc]

end DefinitionSection

theorem Page.linesOf_text (p : Page) : linesOf p.text =
    paragraph ("# " ++ p.title) ++ p.sections.flatMap DefinitionSection.textLines ++ [""] := by
  rw [text, linesOf_append_break, paragraph, linesOf_intercalate (List.cons_ne_nil _ _),
    List.flatMap_cons, linesOf_append_break, List.flatMap_assoc]
  simp only [DefinitionSection.flatMap_linesOf_lines]

namespace Schema

variable {s : Schema} {table : String} {chain : List Property}

/-- The lines for the field that the chain leads to. The heading is its path from the table on, and
its own definition says whether it is required. -/
def FieldLines (s : Schema) (table : String) (chain : List Property) (ls : List String) : Prop :=
  ∃ init p label, chain = init ++ [p] ∧ p.schema.label s = .ok label ∧ ls =
    linesOf ("### `" ++ Naming.path (if table = "" ∧ init = [] then [p.key]
      else table :: chain.map Property.key) ++ "`") ++
    paragraph ("**Type:** " ++ label.text) ++
    (if p.name ∈ s.requiredBy p.owner then paragraph "**Required:** Yes" else []) ++
    p.schema.default?.toList.flatMap
      (fun d => paragraph ("**Default:** `" ++ Toml.display d ++ "`")) ++
    p.schema.description?.toList.flatMap linesOf ++
    (p.schema.snippets (Naming.path (table :: init.map Property.key)) p.key).flatMap
      (fun snippet => linesOf snippet.text) ++ [""]

/-- The lines for a definition, in whose table the fields stand. -/
def SectionLines (s : Schema) (e : String × String) (ls : List String) : Prop :=
  ∃ (definition : Object) (fields : List (List String)),
    s.definition? e.1 = some (.object definition) ∧
    List.Forall₂ (s.FieldLines e.2) (s.fieldChains e.1) fields ∧
    ls = linesOf ("## " ++ definition.title?.getD e.1) ++
      definition.description?.toList.flatMap paragraph ++ fields.flatten

theorem SectionOf.fieldLines {f : FieldSection} (h : s.SectionOf [table] chain f) :
    s.FieldLines table chain (linesOf f.text) := by
  obtain ⟨init, p, rfl, hf⟩ := h
  obtain ⟨label, hlabel, hf⟩ := Result.bind_eq_ok_iff.mp hf
  cases hf
  refine ⟨init, p, label, rfl, hlabel, ?_⟩
  rw [FieldSection.linesOf_text, @FieldSection.path_eq _ table (init.map Property.key) rfl,
    List.map_append, List.map_singleton]
  dsimp only
  rw [if_congr (and_congr_right fun _ => List.map_eq_nil_iff) rfl rfl,
    if_congr List.contains_iff_mem rfl rfl]
  rfl

theorem Opens.sectionLines {e : String × String} {d : DefinitionSection} (h : s.Opens e d) :
    s.SectionLines e d.textLines := by
  have hfields := (forall₂_sectionOf_fieldChains h).imp fun _ _ => SectionOf.fieldLines
  obtain ⟨definition, hresolve, h⟩ := Result.bind_eq_ok_iff.mp h
  obtain ⟨fields, -, h⟩ := Result.bind_eq_ok_iff.mp h
  cases h
  refine ⟨definition, _, resolve_eq_ok_iff.mp hresolve, List.forall₂_map_right_iff.mpr hfields, ?_⟩
  rw [DefinitionSection.textLines, ← List.flatMap_def]

/-- The lines of a page are those of its title and of the definitions in its outline. -/
theorem linesOf_page {title : String} {page : Page} (h : s.page title = .ok page) : ∃ sections,
      List.Forall₂ s.SectionLines s.outline sections ∧
      linesOf page.text = paragraph ("# " ++ title) ++ sections.flatten ++ [""] := by
  have hsections := (forall₂_opens_outline h).imp fun _ _ => Opens.sectionLines
  refine ⟨_, List.forall₂_map_right_iff.mpr hsections, ?_⟩
  obtain ⟨primary, -, h⟩ := Result.bind_eq_ok_iff.mp h
  obtain ⟨appendix, -, h⟩ := Result.bind_eq_ok_iff.mp h
  cases h
  rw [Page.linesOf_text, List.flatMap_def]

end Schema

end ConfigSchema
