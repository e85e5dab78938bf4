import ConfigSchema.CommandLine.Run
import ConfigSchema.Proofs.Canonical.Reload
import ConfigSchema.Proofs.CommandLine.Arguments
import ConfigSchema.Proofs.CommandLine.Directory
import ConfigSchema.Proofs.Docs.Outline
import ConfigSchema.Proofs.Schema.Stamp

/-!
# All or nothing

Arguments ask for one text, which `Yields` derives from the options that they give: the page of a
schema or its canonical form. Where there is no such text, for whatever reason, the run fails and
leaves everything as it was. Otherwise the text goes to standard output, and nothing changes, or it
goes to a file, and nothing else changes (`run_allOrNothing`).
-/

namespace ConfigSchema

namespace CommandLine

/-- What is on standard output at the end; the help is not modelled. -/
def Ending.standardOutput? : Ending → Option String
  | help => none
  | done text => some text
  | misuse | failed _ => some ""

/-- The schema with the version stamped on it, if one is given. -/
def stamped (version? : Option String) (s : Schema) : Schema :=
  match version? with
  | some version => ⟨s.root.stamp version, Object.distinct_stamp s.distinct⟩
  | none => s

variable {engine : Filter.Engine} {given : List Given} {standardInput : Contents}
  {d e : Directory} {source path text : String}

/-- The text of the input, which is standard input if a dash or nothing is given for it. -/
inductive Source (given : List Given) (standardInput : Contents) (d : Directory) (source : String) :
    Prop
  | standardInput {input? : Option String} (hinput : Gives given .input input?)
      (hname : input?.getD "-" = "-") (hsource : standardInput.text = .ok source)
  | file {path : String} (hinput : Gives given .input (some path)) (hname : path ≠ "-")
      (hsource : d.read path = .ok source)

/-- The schema that is selected by the filter and the pointer given, if they are given. -/
def Selects (engine : Filter.Engine) (given : List Given) (source : String) (s : Schema) : Prop :=
  ∃ filter? pointer?, Gives given .filter filter? ∧ Gives given .pointer pointer? ∧
    Schema.load engine source ⟨filter?, pointer?⟩ = .ok s

/-- The options ask for this text, and nothing keeps it from being made. -/
inductive Yields (engine : Filter.Engine) (given : List Given) (standardInput : Contents)
    (d : Directory) : String → Prop
  | page {source : String} {s : Schema} {title? : Option String} {page : Page}
      (hsource : Source given standardInput d source) (hselect : Selects engine given source s)
      (hdocs : .flag .docs ∈ given) (htitle : Gives given .title title?)
      (hpage : s.checkedPage (title?.getD Page.defaultTitle) = .ok page) :
      Yields engine given standardInput d page.text
  | canonical {source : String} {s : Schema} {version? : Option String} {n : Node}
      (hsource : Source given standardInput d source) (hselect : Selects engine given source s)
      (hdocs : .flag .docs ∉ given) (hcheck : s.checkReferences = .ok ())
      (hversion : Gives given .version version?) (hn : (stamped version? s).canonical = .ok n) :
      Yields engine given standardInput d n.pretty

namespace Options

variable {o : Options}

theorem canonical_eq_ok_iff {s : Schema} {n : Node} :
    o.canonical s = .ok n ↔ (stamped (o.value? .version) s).canonical = .ok n := by
  unfold Options.canonical stamped
  cases o.value? .version with
  | none => rfl
  | some version =>
    rw [Schema.canonical_eq_ok_iff]
    show (Node.object (s.root.stamp version)).canonicalSchema = .ok n ↔ _
    rw [Node.canonicalSchema_eq_ok_iff]
    constructor
    · rintro ⟨_, o', h, ho', rfl⟩
      cases h
      exact ⟨o', ho', rfl⟩
    · rintro ⟨o', ho', rfl⟩
      exact ⟨_, o', rfl, ho', rfl⟩

theorem blame_eq_ok_iff {α : Type} {task : Task} {r : Except SchemaError α} {a : α} :
    blame task r = .ok a ↔ r = .ok a :=
  Result.mapError_eq_ok_iff

theorem result_eq_ok_iff : o.result engine source = .ok text ↔
    ∃ s, Schema.load engine source o.selection = .ok s ∧ s.checkReferences = .ok () ∧
      if .docs ∈ o.flags then ∃ page, s.page o.title = .ok page ∧ page.text = text
      else ∃ n, (stamped (o.value? .version) s).canonical = .ok n ∧ n.pretty = text := by
  rw [result, Result.bind_eq_ok_iff]
  refine exists_congr fun s => ?_
  rw [blame_eq_ok_iff, Result.andThen_eq_ok_iff, blame_eq_ok_iff]
  refine and_congr_right fun _ => and_congr_right fun _ => ?_
  split
  · simp only [Result.bind_eq_ok_iff, blame_eq_ok_iff, pure, Except.pure, Except.ok.injEq]
  · simp only [Result.bind_eq_ok_iff, blame_eq_ok_iff, canonical_eq_ok_iff, pure, Except.pure,
      Except.ok.injEq]

section

variable (honce : (given.map Given.option).Nodup)

include honce

theorem source_ofGiven : (ofGiven given).source standardInput d = .ok source ↔
    Source given standardInput d source := by
  unfold Options.source
  split
  · next hname =>
    rw [blameSystem, Result.mapError_eq_ok_iff]
    refine ⟨fun h => .standardInput ((value?_eq_iff honce).mp rfl) hname h, fun h => ?_⟩
    cases h with
    | standardInput _ _ h => exact h
    | file hinput hpath _ =>
      rw [input, (value?_eq_iff honce).mpr hinput] at hname
      exact absurd hname hpath
  · next hname =>
    rw [blameSystem, Result.mapError_eq_ok_iff]
    unfold input at hname ⊢
    constructor
    · intro h
      cases hvalue : (ofGiven given).value? .input with
      | none => rw [hvalue] at hname; exact absurd rfl hname
      | some path =>
        rw [hvalue] at hname h
        exact .file ((value?_eq_iff honce).mp hvalue) hname h
    · rintro (⟨hinput, hdash, -⟩ | ⟨hinput, -, h⟩)
      · rw [(value?_eq_iff honce).mpr hinput] at hname
        exact absurd hdash hname
      · rw [(value?_eq_iff honce).mpr hinput]
        exact h

theorem selects_ofGiven {s : Schema} :
    Schema.load engine source (ofGiven given).selection = .ok s ↔
      Selects engine given source s := by
  constructor
  · intro h
    exact ⟨_, _, (value?_eq_iff honce).mp rfl, (value?_eq_iff honce).mp rfl, h⟩
  · rintro ⟨filter?, pointer?, hfilter, hpointer, h⟩
    rw [selection, (value?_eq_iff honce).mpr hfilter, (value?_eq_iff honce).mpr hpointer]
    exact h

theorem yields_ofGiven :
    ((ofGiven given).source standardInput d >>= (ofGiven given).result engine) = .ok text ↔
      Yields engine given standardInput d text := by
  rw [Result.bind_eq_ok_iff]
  simp only [result_eq_ok_iff, source_ofGiven honce, selects_ofGiven honce, mem_flags_ofGiven]
  have hgives {s : Setting} : Gives given s ((ofGiven given).value? s) :=
    (value?_eq_iff honce).mp rfl
  constructor
  · rintro ⟨source, hsource, s, hselect, hcheck, h⟩
    split at h
    · next hdocs =>
      obtain ⟨page, hpage, rfl⟩ := h
      exact .page hsource hselect hdocs hgives (Schema.checkedPage_eq_ok_iff.mpr ⟨hcheck, hpage⟩)
    · next hdocs =>
      obtain ⟨n, hn, rfl⟩ := h
      exact .canonical hsource hselect hdocs hcheck hgives hn
  · rintro (⟨hsource, hselect, hdocs, htitle, hpage⟩ |
      ⟨hsource, hselect, hdocs, hcheck, hversion, hn⟩)
    · obtain ⟨hcheck, hpage⟩ := Schema.checkedPage_eq_ok_iff.mp hpage
      rw [← (value?_eq_iff honce).mpr htitle] at hpage
      exact ⟨_, hsource, _, hselect, hcheck, by rw [if_pos hdocs]; exact ⟨_, hpage, rfl⟩⟩
    · rw [← (value?_eq_iff honce).mpr hversion] at hn
      exact ⟨_, hsource, _, hselect, hcheck, by rw [if_neg hdocs]; exact ⟨_, hn, rfl⟩⟩

end

/-- A file is written with the directories on the way to it, and nothing else. -/
theorem written_of_write (h : Options.write path text d = (e, .ok ())) : d.Written e path text := by
  unfold Options.write at h
  split at h
  next d' made hmade =>
    split at h
    · cases h
    · split at h
      · cases h
      · next hwrite =>
        cases h
        have hwrite : d'.write path text = .ok e := Result.mapError_eq_ok_iff.mp hwrite
        obtain ⟨target, name, hfollow, hname, hclosed, -⟩ := Directory.write_eq_ok hwrite
        obtain ⟨⟨before, hnames⟩, hdot, hopen, -⟩ := Directory.follow_eq_ok hfollow hname
        have hadds : d.Adds d' (Directory.Passes path) := by
          split at hmade
          · cases hmade
            exact .refl d
          · next parent hparent =>
            have hmake : (d.make parent).1 = d' := congrArg Prod.fst hmade
            rw [← hmake]
            exact d.adds_make_parent hnames hdot (hopen.symm.trans hclosed) hparent
        exact hadds.written hwrite

end Options

/-- The arguments that are accepted are those that give options. A run that is not asked to do
nothing either has a text to make, or fails and leaves everything as it was. The text goes to
standard output when no file is named for it, and nothing changes; or it goes to that file alone,
unless the file cannot be written. The input may come from the same file. -/
theorem run_allOrNothing (arguments : List String) :
    ((∃ o, Options.ofArguments arguments = .ok o) ↔ ∃ given, Accepts arguments given) ∧
    ∀ (engine : Filter.Engine) (given : List Given) (standardInput : Contents)
      (d after : Directory) (ending : Ending), Accepts arguments given → .flag .noOp ∉ given →
      run engine arguments standardInput d = (after, ending) →
      ((∀ text, ¬ Yields engine given standardInput d text) →
        after = d ∧ ending.exitCode = 1 ∧ ending.standardOutput? = some "") ∧
      ∀ text, Yields engine given standardInput d text →
        (Gives given .output none →
          after = d ∧ ending.exitCode = 0 ∧ ending.standardOutput? = some text) ∧
        ∀ path, Gives given .output (some path) → ending.standardOutput? = some "" ∧
          (ending.exitCode = 0 → d.Written after path text) := by
  refine ⟨⟨fun ⟨o, ho⟩ => ?_, fun ⟨given, hgiven⟩ => ?_⟩, ?_⟩
  · obtain ⟨given, hgiven, -⟩ := Options.ofArguments_eq_ok_iff.mp ho
    exact ⟨given, hgiven⟩
  · exact ⟨_, Options.ofArguments_eq_ok_iff.mpr ⟨given, hgiven, rfl⟩⟩
  intro engine given standardInput d after ending hgiven hop h
  have honce := hgiven.once
  have hrun : run engine arguments standardInput d =
      (Options.ofGiven given).run engine standardInput d := by
    rw [run, Options.ofArguments_eq_ok_iff.mpr ⟨given, hgiven, rfl⟩]
  rw [hrun, Options.run, if_neg (mt Options.mem_flags_ofGiven.mp hop)] at h
  simp only [← Options.yields_ofGiven honce, ← Options.value?_eq_iff honce]
  cases hresult : (Options.ofGiven given).source standardInput d >>=
      (Options.ofGiven given).result engine with
  | error failure =>
    rw [hresult] at h
    cases h
    exact ⟨fun _ => ⟨rfl, rfl, rfl⟩, fun text h => nomatch h⟩
  | ok text =>
    rw [hresult] at h
    refine ⟨fun hnone => absurd rfl (hnone text), fun text' htext => ?_⟩
    cases htext
    refine ⟨fun hout => ?_, fun path hout => ?_⟩
    · rw [hout] at h
      cases h
      exact ⟨rfl, rfl, rfl⟩
    · simp only [hout] at h
      split at h
      · next e hwrite =>
        cases h
        exact ⟨rfl, fun _ => Options.written_of_write hwrite⟩
      · cases h
        exact ⟨rfl, fun hexit => nomatch hexit⟩

/-- A schema with a default that is null. -/
def optionalText : Schema := ⟨[("default", .null), ("type", .string "string")], by decide⟩

/-- A directory with one file, which holds that schema in an entry. -/
def optionalTextFile : Directory :=
  [(["text.json"], .file (.ofText (Node.object [("schema", optionalText.toNode)]).pretty))]

/-- The output goes to the file that the input comes from. -/
def inPlace : List Given :=
  [.setting .input "text.json", .setting .filter "first(.schema)", .setting .output "./text.json"]

theorem accepts_inPlace :
    Accepts ["-itext.json", "--jq-expr", "first(.schema)", "--out=./text.json", "--"] inPlace := by
  have hinput : Spells ["-itext.json"] (.setting .input "text.json") :=
    @Spells.shortJoined .input 'i' "text.json" rfl (by decide) (by decide)
  have hfilter : Spells ["--jq-expr", "first(.schema)"] (.setting .filter "first(.schema)") :=
    .long .filter (.inr (by decide))
  have houtput : Spells ["--out=./text.json"] (.setting .output "./text.json") :=
    .longAttached .output "./text.json"
  exact ⟨.cons hinput (.cons hfilter (.cons houtput .ended)), by decide, by decide⟩

/-- A byte that begins no character. -/
def noText : Contents := .ok ⟨#[0xff]⟩

theorem text_noText : noText.text = .error .notText := by
  rfl

theorem accepts_docs : Accepts ["--docs"] [.flag .docs] :=
  ⟨.cons .docs .nil, by decide, by decide⟩

theorem run_allOrNothing_inPlace :
    (Yields Schema.firstSchema inPlace noText optionalTextFile
        (Node.object [("type", .string "string")]).pretty ∧
      ∃ after, run Schema.firstSchema
          ["-itext.json", "--jq-expr", "first(.schema)", "--out=./text.json", "--"] noText
          optionalTextFile = (after, .done "") ∧
        optionalTextFile.Written after "./text.json"
          (Node.object [("type", .string "string")]).pretty) ∧
      ∃ ending, run Schema.firstSchema ["--docs"] noText optionalTextFile =
        (optionalTextFile, ending) ∧ ending.exitCode = 1 := by
  have hread : optionalTextFile.read "text.json" =
      (Contents.ofText (Node.object [("schema", optionalText.toNode)]).pretty).text := rfl
  have hsource : Source inPlace noText optionalTextFile
      (Node.object [("schema", optionalText.toNode)]).pretty :=
    .file List.mem_cons_self (by decide) (hread.trans (Contents.text_ofText _))
  have hselect : Selects Schema.firstSchema inPlace
      (Node.object [("schema", optionalText.toNode)]).pretty optionalText :=
    ⟨some "first(.schema)", none, by simp [Gives, inPlace], by simp [Gives, inPlace],
      Schema.load_firstSchema ⟨by decide, by decide⟩ ⟨by decide, by decide⟩⟩
  have hyields : Yields Schema.firstSchema inPlace noText optionalTextFile
      (Node.object [("type", .string "string")]).pretty := by
    have hversion : Gives inPlace .version none := by simp [Gives, inPlace]
    exact .canonical hsource hselect (by decide) rfl hversion rfl
  have hrun : run Schema.firstSchema
      ["-itext.json", "--jq-expr", "first(.schema)", "--out=./text.json", "--"] noText
      optionalTextFile = ([(["text.json"],
        .file (.ofText (Node.object [("type", .string "string")]).pretty))], .done "") := by
    rw [run, Options.ofArguments_eq_ok_iff.mpr ⟨inPlace, accepts_inPlace, rfl⟩]
    show Options.run _ _ _ _ = _
    rw [Options.run, (Options.yields_ofGiven accepts_inPlace.once).mpr hyields]
    rfl
  have hall := ((run_allOrNothing _).2 _ inPlace _ _ _ _ accepts_inPlace (by decide) hrun).2 _
    hyields
  refine ⟨⟨hyields, _, hrun, (hall.2 "./text.json" (by simp [Gives, inPlace])).2 rfl⟩, ?_⟩
  have hnone : ∀ text, ¬ Yields Schema.firstSchema [.flag .docs] noText optionalTextFile text := by
    have hno : ∀ source, ¬ Source [.flag .docs] noText optionalTextFile source := by
      rintro source (⟨-, -, h⟩ | ⟨hinput, -, -⟩)
      · rw [text_noText] at h
        cases h
      · simp [Gives] at hinput
    rintro text (⟨hsource, -⟩ | ⟨hsource, -⟩)
    · exact hno _ hsource
    · exact hno _ hsource
  obtain ⟨hafter, hexit, -⟩ := ((run_allOrNothing ["--docs"]).2 Schema.firstSchema _ noText
    optionalTextFile _ _ accepts_docs (by decide) rfl).1 hnone
  exact ⟨_, Prod.ext hafter rfl, hexit⟩

end CommandLine

end ConfigSchema
