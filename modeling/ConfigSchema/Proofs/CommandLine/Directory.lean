import ConfigSchema.Proofs.CommandLine.Path
import ConfigSchema.Proofs.Result

/-!
# Changes in a directory

A file that is written is at the place that its path leads to, where it can be read again
(`read_of_write`). The directories on the way to it are only made where nothing is, and only at
places that the path passes (`adds_make_parent`); this holds too when they cannot all be made.
Nothing else changes (`Written`).
-/

namespace ConfigSchema

namespace CommandLine

/-- What is written as text is a text. -/
theorem Contents.text_ofText (s : String) : (ofText s).text = .ok s := by
  have hdecode : String.fromUTF8? s.toUTF8 = some s := dif_pos s.isValidUTF8
  rw [ofText, text]
  simp only [Result.ok_bind, hdecode]
  rfl

namespace Directory

variable {d e f : Directory} {here there place other : List String} {path text : String}

/-! ### What is at a place -/

theorem lookup_filter (keep : List String → Bool) :
    List.lookup place (d.filter fun e => keep e.1) =
      if keep place then d.lookup place else none := by
  induction d with
  | nil => simp
  | cons e d ih =>
    obtain ⟨key, item⟩ := e
    by_cases hkey : place = key
    · subst hkey
      cases hkeep : keep place with
      | true => simp [hkeep]
      | false => simpa [hkeep] using ih
    · have hne : (place == key) = false := beq_false_of_ne hkey
      cases hkeep : keep key <;> simp [List.lookup_cons, hkeep, hne, ih]

theorem item?_put_self {item : Item} (h : d.item? place ≠ some .directory) :
    (d.put place item).item? place = some item := by
  -- the places that are directories by nature are none that anything is put at
  have hplain : ¬ (place = ["/"] ∨ place.all (· = "..")) := fun hfixed => h (if_pos hfixed)
  rw [item?, if_neg hplain, put, List.lookup_append, lookup_filter fun other => other ≠ place]
  simp

theorem item?_put_of_ne {item : Item} (h : other ≠ place) :
    (d.put place item).item? other = d.item? other := by
  have hne : (other == place) = false := beq_false_of_ne h
  rw [item?, item?, put, List.lookup_append, lookup_filter fun other => other ≠ place]
  simp [h, hne, List.lookup_cons]

/-! ### The way to a place -/

theorem look_eq_ok_iff {name : String} {item? : Option Item} : d.look here name = .ok item? ↔
    name.utf8ByteSize < nameLimit ∧ d.item? (step here name) = item? := by
  rw [look]
  split
  · next h => exact iff_of_false (fun h => nomatch h) fun hlt => absurd hlt.1 (Nat.not_lt.mpr h)
  · next h =>
    rw [Except.ok.injEq]
    exact (and_iff_right (Nat.lt_of_not_le h)).symm

theorem enter_eq_ok_iff {name : String} : d.enter here name = .ok there ↔
    d.look here name = .ok (some .directory) ∧ step here name = there := by
  rw [enter, Result.bind_eq_ok_iff]
  constructor
  · rintro ⟨item?, hlook, h⟩
    split at h
    · cases h
    · cases h
    · exact ⟨hlook, Except.ok.inj h⟩
  · rintro ⟨hlook, rfl⟩
    exact ⟨_, hlook, rfl⟩

theorem eq_of_enters {path : List String} (h : path.foldlM d.enter here = .ok there) :
    there = path.foldl step here := by
  induction path generalizing here with
  | nil => exact (Except.ok.inj h).symm
  | cons name path ih =>
    obtain ⟨next, hnext, h⟩ := Result.bind_eq_ok_iff.mp h
    obtain ⟨-, rfl⟩ := enter_eq_ok_iff.mp hnext
    exact ih h

/-- All directories of `d` are directories in `e`. -/
def Keeps (d e : Directory) : Prop :=
  ∀ place, d.item? place = some .directory → e.item? place = some .directory

theorem Keeps.enters (hkeeps : d.Keeps e) {path : List String}
    (h : path.foldlM d.enter here = .ok there) : path.foldlM e.enter here = .ok there := by
  induction path generalizing here with
  | nil => exact h
  | cons name path ih =>
    obtain ⟨next, hnext, h⟩ := Result.bind_eq_ok_iff.mp h
    obtain ⟨hlook, hstep⟩ := enter_eq_ok_iff.mp hnext
    obtain ⟨hlt, hitem⟩ := look_eq_ok_iff.mp hlook
    have hlook' := look_eq_ok_iff.mpr ⟨hlt, hkeeps _ hitem⟩
    exact Result.bind_eq_ok_iff.mpr ⟨next, enter_eq_ok_iff.mpr ⟨hlook', hstep⟩, ih h⟩

theorem Keeps.follow (hkeeps : d.Keeps e) {target : Place} (h : d.follow path = .ok target) :
    e.follow path = .ok target := by
  unfold Directory.follow at h ⊢
  split at h
  · cases h
  · next hempty =>
    rw [if_neg hempty]
    split at h
    · cases h
    · next hlong =>
      rw [if_neg hlong]
      split at h
      · exact h
      · obtain ⟨above, henters, h⟩ := Result.bind_eq_ok_iff.mp h
        exact Result.bind_eq_ok_iff.mpr ⟨above, hkeeps.enters henters, h⟩

/-- A path that leads to a name in a directory ends with that name. -/
theorem follow_eq_ok {target : Place} {name : String} (h : d.follow path = .ok target)
    (hname : target.name? = some name) :
    (∃ before, names path = before ++ [name]) ∧ name ≠ "." ∧
      target.closed = endsInSlash path ∧ step target.directory name = placeOf path := by
  unfold follow at h
  split at h
  · cases h
  · split at h
    · cases h
    · split at h
      · cases h; cases hname
      · next last hlast =>
        obtain ⟨above, henters, h⟩ := Result.bind_eq_ok_iff.mp h
        split at h
        · cases h; cases hname
        · next hplain =>
          cases h
          cases hname
          obtain ⟨before, hnames⟩ := List.getLast?_eq_some_iff.mp hlast
          rw [hnames, List.dropLast_concat] at henters
          refine ⟨⟨before, hnames⟩, fun hdot => hplain (.inl hdot), rfl, ?_⟩
          rw [placeOf, hnames, List.foldl_append, ← eq_of_enters henters]
          rfl

/-! ### A file is written -/

/-- What it takes to write a file, and what comes of it. -/
theorem write_eq_ok (h : d.write path text = .ok e) : ∃ (target : Place) (name : String),
    d.follow path = .ok target ∧ target.name? = some name ∧ target.closed = false ∧
      name.utf8ByteSize < nameLimit ∧ d.item? (placeOf path) ≠ some .directory ∧
      e = d.put (placeOf path) (.file (.ofText text)) := by
  obtain ⟨target, hfollow, h⟩ := Result.bind_eq_ok_iff.mp h
  split at h
  · cases h
  · next name hname =>
    obtain ⟨-, -, -, hplace⟩ := follow_eq_ok hfollow hname
    split at h
    · cases h
    · next hopen =>
      obtain ⟨item?, hlook, h⟩ := Result.bind_eq_ok_iff.mp h
      obtain ⟨hlt, hitem⟩ := look_eq_ok_iff.mp hlook
      rw [hplace] at hitem
      split at h
      · cases h
      · next hfile =>
        cases h
        rw [hplace]
        exact ⟨target, name, hfollow, hname, eq_false_of_ne_true hopen, hlt,
          fun hdirectory => hfile (hitem.symm.trans hdirectory), rfl⟩

theorem keeps_put {item : Item} (h : d.item? place ≠ some .directory) :
    d.Keeps (d.put place item) := by
  intro other hother
  rw [item?_put_of_ne]
  · exact hother
  · rintro rfl
    exact h hother

/-- A file can be read where it has been written. -/
theorem read_of_write (h : d.write path text = .ok e) : e.read path = .ok text := by
  obtain ⟨target, name, hfollow, hname, hopen, hlt, hplain, rfl⟩ := write_eq_ok h
  obtain ⟨-, -, -, hplace⟩ := follow_eq_ok hfollow hname
  have hitem : (d.put (placeOf path) (.file (.ofText text))).item? (placeOf path) =
      some (.file (.ofText text)) := item?_put_self hplain
  rw [← hplace] at hitem
  have hlook := look_eq_ok_iff.mpr ⟨hlt, hitem⟩
  rw [hplace] at hlook
  -- nothing that the path goes through is overwritten, since it goes through directories
  rw [read, (keeps_put hplain).follow hfollow]
  simp only [Result.ok_bind, hname, hlook, hopen]
  exact Contents.text_ofText text

/-! ### Directories are made -/

/-- `e` is `d` with directories at some of the places where `d` has nothing. -/
def Adds (d e : Directory) (P : List String → Prop) : Prop :=
  ∀ place, e.item? place = d.item? place ∨
    d.item? place = none ∧ e.item? place = some .directory ∧ P place

section

variable {P Q : List String → Prop}

theorem Adds.refl (d : Directory) : d.Adds d P := fun _ => .inl rfl

theorem Adds.trans (hde : d.Adds e P) (hef : e.Adds f P) : d.Adds f P := by
  intro place
  rcases hef place with hsame | ⟨hnone, hdirectory, hplace⟩
  · rw [hsame]
    exact hde place
  · rcases hde place with hsame | ⟨-, he, -⟩
    · exact .inr ⟨hsame ▸ hnone, hdirectory, hplace⟩
    · rw [he] at hnone
      cases hnone

theorem Adds.mono (h : d.Adds e P) (hPQ : ∀ place, P place → Q place) : d.Adds e Q :=
  fun place => (h place).imp_right fun ⟨hnone, hdirectory, hplace⟩ =>
    ⟨hnone, hdirectory, hPQ place hplace⟩

theorem adds_put (hnone : d.item? place = none) (hplace : P place) :
    d.Adds (d.put place .directory) P := by
  intro other
  by_cases hother : other = place
  · have hplain : d.item? place ≠ some .directory := by rw [hnone]; simp
    rw [hother]
    exact .inr ⟨hnone, item?_put_self hplain, hplace⟩
  · exact .inl (item?_put_of_ne hother)

end

theorem makeOne_eq_ok {backwards : List String} (h : d.makeOne here backwards = .ok e) :
    d.item? (backwards.reverse.foldl step here) = none ∧
      e = d.put (backwards.reverse.foldl step here) .directory := by
  cases backwards with
  | nil => cases h
  | cons name above =>
    obtain ⟨there, henters, h⟩ := Result.bind_eq_ok_iff.mp h
    obtain ⟨item?, hlook, h⟩ := Result.bind_eq_ok_iff.mp h
    obtain ⟨-, hitem⟩ := look_eq_ok_iff.mp hlook
    rw [List.reverse_cons, List.foldl_append, ← eq_of_enters henters]
    split at h
    · cases h
    · cases h
      exact ⟨hitem, rfl⟩

/-- Some of the names on the way lead to the place. -/
def OnTheWay (here way place : List String) : Prop :=
  ∃ before after, way = before ++ after ∧ place = before.foldl step here

theorem adds_makeOne {backwards : List String} (h : d.makeOne here backwards = .ok e) :
    d.Adds e (OnTheWay here backwards.reverse) := by
  obtain ⟨hnone, rfl⟩ := makeOne_eq_ok h
  exact adds_put hnone ⟨backwards.reverse, [], (List.append_nil _).symm, rfl⟩

/-- However it ends, only directories are made, and only on the way. -/
theorem adds_makeAll (d : Directory) (here backwards : List String) :
    d.Adds (d.makeAll here backwards).1 (OnTheWay here backwards.reverse) := by
  induction backwards generalizing d with
  | nil => exact .refl d
  | cons name above ih =>
    have habove := (ih d).mono (Q := OnTheWay here (name :: above).reverse) fun place => by
      rintro ⟨before, after, hway, hplace⟩
      exact ⟨before, after ++ [name], by rw [List.reverse_cons, hway, List.append_assoc], hplace⟩
    rw [makeAll]
    -- made at once, or after the directories above it, or not for another reason
    split
    · next e hmade => exact adds_makeOne hmade
    · split
      · next e fault hall => rw [hall] at habove; exact habove
      · next e hall =>
        rw [hall] at habove
        split
        · next f hmade => exact habove.trans (adds_makeOne hmade)
        · exact habove
    · exact .refl d

/-- The directories on the way to a parent are passed by the path. -/
theorem adds_make_parent {before : List String} {name parent : String} (d : Directory)
    (hnames : names path = before ++ [name]) (hname : name ≠ ".")
    (hopen : endsInSlash path = false) (hparent : parent? path = some parent) :
    d.Adds (d.make parent).1 (Passes path) := by
  obtain ⟨hstart, hbefore⟩ := parent?_eq_some hnames hname hopen hparent
  rw [make]
  split
  · exact .refl d
  · have hadds := adds_makeAll d (start parent) ((names parent).filter (· ≠ ".")).reverse
    refine hadds.mono ?_
    rintro place ⟨way, rest, hway, rfl⟩
    rw [List.reverse_reverse, hbefore] at hway
    obtain ⟨passed, left, rfl, rfl, -⟩ := List.filter_eq_append_iff.mp hway
    refine ⟨passed, left ++ [name], by rw [hnames, List.append_assoc], by simp, ?_⟩
    rw [hstart, foldl_step_filter]

/-- `e` is `d` with a text written to a path: the file is where the path leads, and otherwise there
are only new directories, which the path passes. -/
structure Written (d e : Directory) (path text : String) : Prop where
  item : e.item? (placeOf path) = some (.file (.ofText text))
  read : e.read path = .ok text
  others : ∀ place, place ≠ placeOf path → e.item? place = d.item? place ∨
    d.item? place = none ∧ e.item? place = some .directory ∧ Passes path place

theorem Adds.written (hadds : d.Adds e (Passes path)) (h : e.write path text = .ok f) :
    d.Written f path text where
  item := by
    obtain ⟨-, -, -, -, -, -, hplain, rfl⟩ := write_eq_ok h
    exact item?_put_self hplain
  read := read_of_write h
  others := by
    obtain ⟨-, -, -, -, -, -, -, rfl⟩ := write_eq_ok h
    intro place hplace
    rw [item?_put_of_ne hplace]
    exact hadds place

end Directory

end CommandLine

end ConfigSchema
