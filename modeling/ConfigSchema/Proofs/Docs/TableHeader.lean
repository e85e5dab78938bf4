import ConfigSchema.Proofs.Docs.Flattening
import ConfigSchema.Proofs.Docs.Outline
import ConfigSchema.Proofs.Docs.Snippets
import ConfigSchema.Proofs.Toml.Header

/-!
# The table of a snippet

A snippet opens the table that its field stands in, by the names that lead there. The header joins
these names without quotes, while the assignment below it quotes its key; so the header is one for
the table exactly if none of the names needs quotes (`headerLine_page`).
-/

namespace ConfigSchema

namespace Snippet

variable {s : Snippet}

/-- The line after the one that opens the fence. -/
def headerLine (s : Snippet) : List Char :=
  Toml.line (s.text.toList.dropWhile (· ≠ '\n')).tail

theorem headerLine_eq (h : s.table ≠ "") :
    s.headerLine = Toml.line ('[' :: (s.table.toList ++ [']'])) := by
  have htable : ¬ s.table.isEmpty = true := by rwa [String.isEmpty_iff]
  obtain ⟨rest, htext⟩ : ∃ rest, s.text.toList =
      "```toml".toList ++ '\n' :: ('[' :: (s.table.toList ++ [']']) ++ '\n' :: rest) := by
    rw [text, if_neg htable]
    generalize "\n".intercalate _ = body
    refine ⟨body.toList ++ "\n```".toList, ?_⟩
    simp only [String.toList_append, List.append_assoc, List.cons_append]
    rfl
  rw [headerLine, htext]
  exact Toml.line_append rest

theorem table_of_mem_snippets {field : Object} {table key : String}
    (h : s ∈ field.snippets table key) : s.table = table := by
  unfold Object.snippets at h
  split at h
  · cases h
  · split at h
    · rw [List.mem_singleton.mp h]
    · obtain ⟨n, -, rfl⟩ := List.mem_map.mp h
      rfl

theorem tableHeader_headerLine_iff {names : List String} (hpath : Naming.path names ≠ "")
    (h : s.table = Naming.path names) :
    Toml.TableHeader s.headerLine names ↔ ∀ name ∈ names, Toml.IsBareKey name := by
  have hnames : names ≠ [] := by
    rintro rfl
    exact hpath rfl
  rw [headerLine_eq (h ▸ hpath), h, Toml.tableHeader_path_iff hnames]

end Snippet

namespace Schema

variable {s : Schema} {title : String} {page : Page} {d : DefinitionSection} {f : FieldSection}
  {snippet : Snippet}

theorem snippets_fieldSection {parent : List String} {key : String} {isRequired : Bool}
    {field : Object} (h : s.fieldSection parent key isRequired field = .ok f) :
    f.snippets = field.snippets (Naming.path f.parent) f.key := by
  obtain ⟨label, -, h⟩ := Result.bind_eq_ok_iff.mp h
  cases h
  rfl

theorem exists_chain_of_mem_fields (h : s.page title = .ok page) (hd : d ∈ page.sections)
    (hf : f ∈ d.fields) : ∃ table chain,
      (d.name, table) ∈ s.outline ∧ s.FieldChain d.name chain ∧ s.SectionOf [table] chain f := by
  obtain ⟨⟨name, table⟩, he, hopens⟩ := Result.exists_of_mem (forall₂_opens_outline h).flip hd
  have hopens : s.Opens (name, table) d := hopens
  rw [← show d.name = name from hopens.name_eq] at he hopens
  have hsections := (forall₂_sectionOf_fieldChains hopens).flip
  obtain ⟨chain, hchain, hsection⟩ := Result.exists_of_mem hsections hf
  exact ⟨table, chain, he, mem_fieldChains.mp hchain, hsection⟩

/-- The header of a snippet is one for the names that lead to the field, from the table of its
section on, exactly if all of these names are bare; the keys below it are quoted where they need to
be. -/
theorem headerLine_page (h : s.page title = .ok page) (hd : d ∈ page.sections) (hf : f ∈ d.fields)
    (hsnippet : snippet ∈ f.snippets) (hpath : Naming.path f.parent ≠ "") :
    ∃ table init p, (d.name, table) ∈ s.outline ∧ s.FieldChain d.name (init ++ [p]) ∧
      f.parent = table :: init.map Property.key ∧ f.key = p.key ∧
      ((∀ names, Toml.TableHeader snippet.headerLine names ↔ names = f.parent) ↔
        ∀ name ∈ f.parent, Toml.isBare name = true) ∧
      ((∃ n ∈ p.schema.examples, snippet = p.schema.assignment (Naming.path f.parent) f.key n) ∨
        ∀ n ∈ p.schema.examples, n.object?.isSome = true) ∧
      ∀ e ∈ snippet.assignments, ∀ name,
        Toml.SimpleKey (Toml.key e.1).toList name ↔ name = e.1 ∧ '\x7f' ∉ e.1.toList := by
  obtain ⟨table, chain, he, hchain, init, p, rfl, hown⟩ := exists_chain_of_mem_fields h hd hf
  obtain ⟨hparent, hkey, -⟩ := fieldSection_eq_ok hown
  rw [snippets_fieldSection hown] at hsnippet
  have hheader := Snippet.tableHeader_headerLine_iff hpath (Snippet.table_of_mem_snippets hsnippet)
  refine ⟨table, init, p, he, hchain, hparent, hkey, ?_, ?_, fun e _ name => Toml.simpleKey_key_iff⟩
  · simp only [Toml.isBare_iff]
    rw [← hheader]
    constructor
    · intro h
      exact (h f.parent).mpr rfl
    · rintro h names
      exact ⟨fun hnames => hnames.unique h, fun hnames => hnames ▸ h⟩
  · by_cases hall : ∀ n ∈ p.schema.examples, n.object?.isSome = true
    · exact .inr hall
    · rw [Object.snippets_eq_map_assignment hall] at hsnippet
      obtain ⟨n, hn, rfl⟩ := List.mem_map.mp hsnippet
      exact .inl ⟨n, List.mem_of_mem_filter hn, rfl⟩

/-- The task of a platform, which stands in the manifest under the name. -/
def platform (name : String) : Schema := ⟨[
  ("properties", .object [
    ("platform", .object [("alias", .string name), ("$ref", .string "#/$defs/Platform")])]),
  ("$defs", .object [
    ("Platform", .object [("properties", .object [
      ("build_task", .object [("$ref", .string "#/$defs/Task")])])]),
    ("Task", .object [("properties", .object [
      ("cmd", .object [("type", .string "string"), ("examples", .array [.string "make"])])])])])],
  of_decide_eq_true rfl⟩

def platformSnippet (name : String) : Snippet :=
  ⟨Naming.path [name, "build-task"], [("cmd", .string "make")]⟩

def platformField (name : String) : FieldSection :=
  ⟨[name, "build-task"], "cmd", .names ["string"], false, none, none, [platformSnippet name]⟩

def platformSection (name : String) : DefinitionSection :=
  ⟨"Platform", "Platform", none, [platformField name]⟩

def platformPage (name : String) : Page where
  title := "Manifest"
  sections := [platformSection name,
    ⟨"Task", "Task", none, [⟨["task"], "cmd", .names ["string"], false, none, none,
      [⟨"task", [("cmd", .string "make")]⟩]⟩]⟩]

theorem page_platform (name : String) :
    (platform name).page "Manifest" = .ok (platformPage name) := by
  with_unfolding_all rfl

theorem headerLine_page_platform :
    (platform "linux-64").page "Manifest" = .ok (platformPage "linux-64") ∧
      platformSection "linux-64" ∈ (platformPage "linux-64").sections ∧
      platformField "linux-64" ∈ (platformSection "linux-64").fields ∧
      platformSnippet "linux-64" ∈ (platformField "linux-64").snippets ∧
      Naming.path (platformField "linux-64").parent ≠ "" ∧
      (platformSnippet "linux-64").headerLine = "[linux-64.build-task]".toList ∧
      ∀ names, Toml.TableHeader (platformSnippet "linux-64").headerLine names ↔
        names = ["linux-64", "build-task"] := by
  have hpath : Naming.path (platformField "linux-64").parent ≠ "" := by decide
  have hsection : platformSection "linux-64" ∈ (platformPage "linux-64").sections :=
    List.mem_cons_self
  have hfield : platformField "linux-64" ∈ (platformSection "linux-64").fields := List.mem_cons_self
  have hsnippet : platformSnippet "linux-64" ∈ (platformField "linux-64").snippets :=
    List.mem_cons_self
  obtain ⟨-, -, -, -, -, -, -, hheader, -⟩ :=
    headerLine_page (page_platform "linux-64") hsection hfield hsnippet hpath
  exact ⟨page_platform "linux-64", hsection, hfield, hsnippet, hpath, by decide,
    hheader.mpr (by decide)⟩

/-- A name with a point in it is read from the header as two names. -/
theorem not_tableHeader_headerLine_page :
    ¬ ∀ (s : Schema) (title : String) (page : Page) (d : DefinitionSection) (f : FieldSection)
      (snippet : Snippet), s.page title = .ok page → d ∈ page.sections → f ∈ d.fields →
      snippet ∈ f.snippets → Naming.path f.parent ≠ "" →
      Toml.TableHeader snippet.headerLine f.parent := by
  intro h
  have hpath : Naming.path (platformField "linux.64").parent ≠ "" := by decide
  have hheader := h (platform "linux.64") "Manifest" (platformPage "linux.64")
    (platformSection "linux.64") (platformField "linux.64") (platformSnippet "linux.64")
    (page_platform "linux.64") List.mem_cons_self List.mem_cons_self List.mem_cons_self hpath
  have hbare := (Snippet.tableHeader_headerLine_iff hpath rfl).mp hheader "linux.64"
    List.mem_cons_self
  exact absurd (Toml.isBare_iff.mpr hbare) (by decide)

end Schema

end ConfigSchema
