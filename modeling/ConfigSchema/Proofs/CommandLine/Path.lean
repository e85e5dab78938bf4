import ConfigSchema.CommandLine.Directory
import ConfigSchema.Proofs.Json.Pointer

/-!
# Paths

A path leads to one place (`placeOf`) and passes others on its way (`Passes`). The path of the
parent, which is found by characters from the end of the path, leads where the names before the last
one do (`parent?_eq_some`): what is trimmed off on the way are empty pieces and names that stay.
-/

namespace ConfigSchema

namespace CommandLine

namespace Directory

variable {path : String}

/-- The place that a path leads to. -/
def placeOf (path : String) : List String := (names path).foldl step (start path)

/-- The path goes through the place, and on from there. -/
def Passes (path : String) (place : List String) : Prop :=
  ∃ before after, names path = before ++ after ∧ after ≠ [] ∧
    place = before.foldl step (start path)

theorem foldl_step_filter (path : List String) (here : List String) :
    (path.filter (· ≠ ".")).foldl step here = path.foldl step here := by
  induction path generalizing here with
  | nil => rfl
  | cons name path ih =>
    rw [List.filter_cons]
    by_cases hdot : name = "."
    · rw [if_neg (by simpa using hdot), ih, List.foldl_cons, step, if_pos hdot]
    · rw [if_pos (by simpa using hdot), List.foldl_cons, ih, List.foldl_cons]

/-! ### Pieces of a path -/

/-- The pieces that lead on. -/
def leading (pieces : List (List Char)) : List (List Char) :=
  pieces.filter fun piece => piece ≠ [] ∧ piece ≠ ['.']

theorem filter_map_ofList (pieces : List (List Char)) :
    ((pieces.filter (· ≠ [])).map String.ofList).filter (· ≠ ".") =
      (leading pieces).map String.ofList := by
  have hdot (piece : List Char) : String.ofList piece = "." ↔ piece = ['.'] :=
    @String.ofList_inj piece ['.']
  rw [leading, List.filter_map, List.filter_filter]
  congr 1
  exact List.filter_congr fun piece _ => by simp [hdot, Bool.and_comm]

/-- The pieces of a path that lead on. -/
def moves (cs : List Char) : List (List Char) := leading (Pointer.split cs)

theorem filter_names (path : String) :
    (names path).filter (· ≠ ".") = (moves path.toList).map String.ofList :=
  filter_map_ofList (Pointer.split path.toList)

theorem moves_append_slash (cs rest : List Char) :
    moves (cs ++ '/' :: rest) = moves cs ++ moves rest := by
  rw [moves, Pointer.split_append_slash, leading, List.filter_append]
  rfl

theorem moves_trimBackwards (cs : List Char) :
    moves (trimBackwards cs).reverse = moves cs.reverse := by
  fun_induction trimBackwards cs with
  | case1 rest ih =>
    rw [ih, List.reverse_cons, moves_append_slash]
    exact (List.append_nil _).symm
  | case2 rest ih =>
    have hsplit : ('.' :: '/' :: rest).reverse = rest.reverse ++ '/' :: ['.'] := by simp
    rw [ih, hsplit, moves_append_slash]
    exact (List.append_nil _).symm
  | case3 => rfl

theorem trimBackwards_suffix (cs : List Char) : trimBackwards cs <:+ cs := by
  fun_induction trimBackwards cs with
  | case1 rest ih => exact ih.trans (List.suffix_cons ..)
  | case2 rest ih => exact ih.trans ((List.suffix_cons ..).trans (List.suffix_cons ..))
  | case3 => exact List.suffix_rfl

theorem getLast?_of_trimBackwards_eq_nil {cs : List Char} (h : trimBackwards cs = [])
    (hcs : cs ≠ []) : cs.getLast? = some '/' := by
  fun_induction trimBackwards cs with
  | case1 rest ih =>
    cases rest with
    | nil => rfl
    | cons c rest => rw [List.getLast?_cons_cons]; exact ih h (List.cons_ne_nil c rest)
  | case2 rest ih =>
    cases rest with
    | nil => rfl
    | cons c rest =>
      rw [List.getLast?_cons_cons, List.getLast?_cons_cons]
      exact ih h (List.cons_ne_nil c rest)
  | case3 => exact absurd h hcs

theorem trimBackwards_eq_self {cs : List Char} (hempty : cs.takeWhile (· != '/') ≠ [])
    (hdot : cs.takeWhile (· != '/') ≠ ['.']) : trimBackwards cs = cs := by
  unfold trimBackwards
  split
  · exact absurd rfl hempty
  · exact absurd rfl hdot
  · rfl

/-! ### The last piece -/

/-- What stands behind the last slash of a path, given backwards. -/
def nameBackwards (path : String) : List Char := path.toList.reverse.takeWhile (· != '/')

/-- A path up to its last slash, given backwards. -/
def pathBackwards (path : String) : List Char := path.toList.reverse.dropWhile (· != '/')

theorem nameBackwards_append (path : String) :
    nameBackwards path ++ pathBackwards path = path.toList.reverse :=
  List.takeWhile_append_dropWhile

theorem slash_not_mem_nameBackwards (path : String) : '/' ∉ nameBackwards path := fun hmem =>
  absurd (List.all_eq_true.mp List.all_takeWhile '/' hmem) (by simp)

theorem pathBackwards_cases (path : String) :
    pathBackwards path = [] ∨ ∃ rest, pathBackwards path = '/' :: rest := by
  cases hrest : pathBackwards path with
  | nil => exact .inl rfl
  | cons c rest =>
    unfold pathBackwards at hrest
    have hhead := List.head_dropWhile_not (· != '/') (l := path.toList.reverse) (by simp [hrest])
    have hc : c = '/' := by simpa [hrest] using hhead
    exact .inr ⟨rest, by rw [hc]⟩

theorem toList_eq_append (path : String) :
    path.toList = (pathBackwards path).reverse ++ (nameBackwards path).reverse := by
  rw [← List.reverse_append, nameBackwards_append, List.reverse_reverse]

/-- The last piece of a path and the others. -/
theorem split_eq_append (path : String) : ∃ init,
    Pointer.split path.toList = init ++ [(nameBackwards path).reverse] ∧
      leading init = moves (pathBackwards path).reverse := by
  have hnot : '/' ∉ (nameBackwards path).reverse := fun hmem =>
    slash_not_mem_nameBackwards path (List.mem_reverse.mp hmem)
  have hlast := Pointer.split_of_not_mem hnot
  have hpath := toList_eq_append path
  rcases pathBackwards_cases path with hrest | ⟨rest, hrest⟩
  · rw [hrest] at hpath ⊢
    exact ⟨[], by rw [hpath]; exact hlast, rfl⟩
  · rw [hrest, List.reverse_cons, List.append_assoc, List.singleton_append] at hpath
    refine ⟨Pointer.split rest.reverse, ?_, ?_⟩
    · rw [hpath, Pointer.split_append_slash, hlast]
    · rw [hrest, List.reverse_cons, moves_append_slash]
      exact (List.append_nil _).symm

theorem start_eq (path : String) :
    start path = if path.toList.reverse.getLast? = some '/' then ["/"] else [] := by
  rw [start, List.getLast?_reverse]

section

variable {before : List String} {name parent : String} (hnames : names path = before ++ [name])
  (hopen : endsInSlash path = false)

include hnames hopen

theorem nameBackwards_ne_nil : nameBackwards path ≠ [] := by
  intro hnil
  have hpath := nameBackwards_append path
  rw [hnil, List.nil_append] at hpath
  rcases pathBackwards_cases path with hrest | ⟨rest, hrest⟩
  · rw [hrest] at hpath
    rw [names, List.reverse_eq_nil_iff.mp hpath.symm] at hnames
    simp [Pointer.split] at hnames
  · rw [endsInSlash, List.getLast?_eq_head?_reverse, ← hpath, hrest] at hopen
    cases hopen

/-- The last name of a path, if no slash follows it, and the others. -/
theorem names_eq_append : name = String.ofList (nameBackwards path).reverse ∧
    before.filter (· ≠ ".") = (moves (pathBackwards path).reverse).map String.ofList := by
  obtain ⟨init, hsplit, hinit⟩ := split_eq_append path
  have hlast := nameBackwards_ne_nil hnames hopen
  have hpieces : names path =
      (init.filter (· ≠ [])).map String.ofList ++ [String.ofList (nameBackwards path).reverse] := by
    rw [names, hsplit, List.filter_append, List.map_append]
    simp [hlast]
  obtain ⟨hbefore, hname⟩ := List.append_inj' (hnames.symm.trans hpieces) rfl
  refine ⟨List.singleton_inj.mp hname, ?_⟩
  rw [hbefore, filter_map_ofList, hinit]

theorem parent?_cases (hname : name ≠ ".") (h : parent? path = some parent) :
    pathBackwards path = [] ∧ parent = "" ∨
      pathBackwards path ≠ [] ∧ trimBackwards (pathBackwards path) = [] ∧ parent = "/" ∨
      trimBackwards (pathBackwards path) ≠ [] ∧
        parent = String.ofList (trimBackwards (pathBackwards path)).reverse := by
  have hempty := nameBackwards_ne_nil hnames hopen
  have hdot : nameBackwards path ≠ ['.'] := by
    intro hdot
    have hlast := (names_eq_append hnames hopen).1
    rw [hdot] at hlast
    exact hname hlast
  have hbody : path.toList.reverse.isEmpty = false := by
    rw [← nameBackwards_append]
    simp [hempty]
  simp only [parent?, trimBackwards_eq_self hempty hdot, hbody] at h
  have hparent := Option.some.inj h
  rw [← pathBackwards] at hparent
  cases hrest : pathBackwards path with
  | nil =>
    rw [hrest] at hparent
    exact .inl ⟨rfl, hparent.symm⟩
  | cons c rest =>
    rw [hrest] at hparent
    refine .inr ?_
    cases htrim : trimBackwards (c :: rest) with
    | nil =>
      rw [htrim] at hparent
      exact .inl ⟨List.cons_ne_nil c rest, rfl, hparent.symm⟩
    | cons c' rest' =>
      rw [htrim] at hparent
      exact .inr ⟨List.cons_ne_nil c' rest', hparent.symm⟩

end

/-! ### The path of the parent -/

theorem getLast?_of_suffix {cs rest : List Char} (h : rest <:+ cs) (hrest : rest ≠ []) :
    cs.getLast? = rest.getLast? := by
  obtain ⟨before, rfl⟩ := h
  rw [List.getLast?_append, List.getLast?_eq_some_getLast hrest]
  rfl

/-- The path of the parent begins where the path does, and has the names before the last one. -/
theorem parent?_eq_some {before : List String} {name parent : String}
    (hnames : names path = before ++ [name]) (hname : name ≠ ".")
    (hopen : endsInSlash path = false) (h : parent? path = some parent) :
    start parent = start path ∧ (names parent).filter (· ≠ ".") = before.filter (· ≠ ".") := by
  have hsuffix : pathBackwards path <:+ path.toList.reverse := List.dropWhile_suffix _
  rw [(names_eq_append hnames hopen).2, start_eq path, ← moves_trimBackwards, filter_names]
  rcases parent?_cases hnames hopen hname h with ⟨hrest, rfl⟩ | ⟨hrest, htrim, rfl⟩ | ⟨htrim, rfl⟩
  · -- there is no slash: the path begins with its only name
    have hnot : path.toList.reverse.getLast? ≠ some '/' := by
      intro hslash
      have hpath := nameBackwards_append path
      rw [hrest, List.append_nil] at hpath
      exact slash_not_mem_nameBackwards path (hpath ▸ List.mem_of_getLast? hslash)
    rw [if_neg hnot, hrest]
    exact ⟨rfl, rfl⟩
  · -- nothing but slashes and names that stay precede the last name: the parent is the root
    rw [getLast?_of_suffix hsuffix hrest, getLast?_of_trimBackwards_eq_nil htrim hrest, htrim]
    exact ⟨rfl, rfl⟩
  · have htrimmed := (trimBackwards_suffix (pathBackwards path)).trans hsuffix
    rw [start_eq, String.toList_ofList, List.reverse_reverse, getLast?_of_suffix htrimmed htrim]
    exact ⟨rfl, rfl⟩

end Directory

end CommandLine

end ConfigSchema
