import SettingsSweep.Files.FileSystem

/-!
The names on a path. A name that is joined to a path comes after the names of that path, the path of a place has
the names that lead to it, and what a path is called is its last name but for dots. Without it the parent is left.
-/

set_option autoImplicit false

namespace SettingsSweep

namespace Path

structure IsName (name : String) : Prop where
  nonempty : name ≠ ""
  plain : '/' ∉ name.toList
  noNul : '\x00' ∉ name.toList

theorem isName_of_mem_names {path name : String} (noNul : '\x00' ∉ path.toList)
    (h : name ∈ names path) : IsName name := by
  obtain ⟨piece, hp, rfl⟩ := List.mem_map.1 h
  obtain ⟨hp, ne⟩ := List.mem_filter.1 hp
  refine ⟨?_, ?_, ?_⟩
  · simpa using ne
  · rw [String.toList_ofList]
    exact Text.not_mem_of_mem_splitOn hp
  · rw [String.toList_ofList]
    exact fun hc => noNul (Text.mem_of_mem_splitOn hp hc)

theorem names_slash (base path : String) : names (base ++ "/" ++ path) = names base ++ names path := by
  have text : (base ++ "/" ++ path).toList = base.toList ++ '/' :: path.toList := by
    simp
  rw [names, text, Text.splitOn_append, List.filter_append, List.map_append]
  rfl

theorem names_of_isName {name : String} (h : IsName name) : names name = [name] := by
  have ne : name.toList ≠ [] := fun e => h.nonempty (String.toList_inj.1 e)
  rw [names, Text.splitOn_of_not_mem h.plain]
  simp [ne]

theorem isAbsolute_of_plain {name : String} (plain : '/' ∉ name.toList) : isAbsolute name = false := by
  rw [isAbsolute, decide_eq_false_iff_not]
  intro first
  exact plain (List.mem_of_mem_head? first)

theorem isAbsolute_of_isName {name : String} (h : IsName name) : isAbsolute name = false :=
  isAbsolute_of_plain h.plain

theorem endsWithSlash_append {name : String} (h : IsName name) (base : String) :
    endsWithSlash (base ++ name) = false := by
  rw [endsWithSlash, decide_eq_false_iff_not, String.toList_append, List.getLast?_append]
  cases last : name.toList.getLast? with
  | none => exact absurd (String.toList_inj.1 (List.getLast?_eq_none_iff.1 last)) h.nonempty
  | some c =>
    rw [Option.some_or]
    intro slash
    cases slash
    exact h.plain (List.mem_of_getLast? last)

theorem exists_of_endsWithSlash {base : String} (h : endsWithSlash base = true) :
    ∃ start, base = start ++ "/" := by
  rw [endsWithSlash, decide_eq_true_eq, List.getLast?_eq_some_iff] at h
  obtain ⟨start, h⟩ := h
  refine ⟨String.ofList start, String.toList_inj.1 ?_⟩
  rw [h, String.toList_append, String.toList_ofList]
  rfl

section

variable {name : String}

theorem join_empty (name : String) : join "" name = name := by
  rw [join]
  simp

theorem exists_join (h : IsName name) {base : String} (nonempty : base ≠ "") :
    ∃ start, names base = names start ∧ join base name = start ++ "/" ++ name ∧
      (start ++ "/" = base ∨ start = base) := by
  rw [join, isAbsolute_of_isName h, Bool.false_or, if_neg (by simpa using nonempty)]
  by_cases slash : endsWithSlash base = true
  · obtain ⟨start, rfl⟩ := exists_of_endsWithSlash slash
    refine ⟨start, ?_, if_pos slash, .inl rfl⟩
    have split := names_slash start ""
    rw [String.append_empty] at split
    rw [split, show names "" = [] from rfl, List.append_nil]
  · exact ⟨base, rfl, if_neg slash, .inr rfl⟩

theorem names_join (h : IsName name) (base : String) : names (join base name) = names base ++ [name] := by
  by_cases nonempty : base = ""
  · rw [nonempty, join_empty, names_of_isName h]
    rfl
  · obtain ⟨start, same, eq, -⟩ := exists_join h nonempty
    rw [eq, names_slash, same, names_of_isName h]

theorem endsWithSlash_join (h : IsName name) (base : String) : endsWithSlash (join base name) = false := by
  by_cases nonempty : base = ""
  · rw [nonempty, join_empty]
    have last := endsWithSlash_append h ""
    rw [String.empty_append] at last
    exact last
  · obtain ⟨start, -, eq, -⟩ := exists_join h nonempty
    rw [eq]
    exact endsWithSlash_append h _

theorem isAbsolute_append {base : String} (nonempty : base ≠ "") (rest : String) :
    isAbsolute (base ++ rest) = isAbsolute base := by
  rw [isAbsolute, isAbsolute, String.toList_append]
  cases first : base.toList with
  | nil => exact absurd (String.toList_inj.1 first) nonempty
  | cons c cs => rfl

theorem isAbsolute_join (h : IsName name) (base : String) :
    isAbsolute (join base name) = isAbsolute base := by
  by_cases nonempty : base = ""
  · rw [nonempty, join_empty, isAbsolute_of_isName h]
    rfl
  · obtain ⟨start, -, eq, rfl | rfl⟩ := exists_join h nonempty
    · rw [eq, isAbsolute_append nonempty]
    · rw [eq, String.append_assoc, isAbsolute_append nonempty]

theorem nul_mem_join (h : IsName name) (base : String) :
    '\x00' ∈ (join base name).toList ↔ '\x00' ∈ base.toList := by
  by_cases nonempty : base = ""
  · rw [nonempty, join_empty]
    simp [h.noNul]
  · obtain ⟨start, -, eq, rfl | rfl⟩ := exists_join h nonempty
    · rw [eq, String.toList_append, List.mem_append]
      simp [h.noNul]
    · rw [eq, String.toList_append, String.toList_append, List.mem_append, List.mem_append]
      simp [h.noNul]

theorem join_ne_empty (h : IsName name) (base : String) : join base name ≠ "" := by
  intro e
  have last := names_join h base
  rw [e] at last
  exact absurd last.symm (by simp [names, Text.splitOn])

end

section

variable {name other : String}

end

theorem exists_of_dropIdle {relative : Bool} {pieces before : List (List Char)} {last : List Char}
    (h : dropIdle relative pieces = last :: before) :
    last ≠ [] ∧ ∃ idle, pieces = idle ++ last :: before ∧ ∀ piece ∈ idle, piece = [] ∨ piece = ['.'] := by
  induction pieces with
  | nil => cases h
  | cons piece pieces ih =>
    rw [dropIdle] at h
    split at h
    · next idle =>
      obtain ⟨ne, more, rfl, all⟩ := ih h
      refine ⟨ne, piece :: more, rfl, ?_⟩
      intro p hp
      rcases List.mem_cons.1 hp with rfl | hp
      · exact idle.imp_right And.left
      · exact all p hp
    · next solid =>
      cases h
      exact ⟨fun e => solid (.inl e), [], rfl, by simp⟩

/-- The pieces of a path, without the empty one before the slash that makes it absolute. -/
def body (path : String) : List (List Char) :=
  if isAbsolute path then (Text.splitOn '/' path.toList).tail else Text.splitOn '/' path.toList

theorem names_eq_body (path : String) :
    names path = ((body path).filter (· ≠ [])).map String.ofList := by
  unfold body names
  split
  · next absolute =>
    rw [isAbsolute, decide_eq_true_eq] at absolute
    cases text : path.toList with
    | nil => rw [text] at absolute; cases absolute
    | cons c cs =>
      rw [text] at absolute
      cases absolute
      rfl
  · rfl

theorem names_of_lastName? {path name : String} (h : lastName? path = some name) :
    ∃ start dots, names path = start ++ name :: dots ∧ ∀ dot ∈ dots, dot = "." := by
  obtain ⟨last, hl, rfl⟩ := Option.map_eq_some_iff.1 h
  obtain ⟨before, hp⟩ := List.head?_eq_some_iff.1 hl
  obtain ⟨ne, idle, parts, all⟩ := exists_of_dropIdle hp
  change (body path).reverse = idle ++ last :: before at parts
  refine ⟨(before.reverse.filter (· ≠ [])).map String.ofList,
    (idle.reverse.filter (· ≠ [])).map String.ofList, ?_, ?_⟩
  · rw [names_eq_body, ← List.reverse_reverse (body path), parts]
    simp [ne]
  · intro dot hd
    obtain ⟨piece, hp, rfl⟩ := List.mem_map.1 hd
    obtain ⟨hp, solid⟩ := List.mem_filter.1 hp
    rcases all piece (List.mem_reverse.1 hp) with rfl | rfl
    · simp at solid
    · rfl

structure IsLastName (name : String) : Prop extends IsName name where
  solid : name ≠ "."

theorem dropIdle_of_isLastName {name : String} (h : IsLastName name) (relative : Bool)
    (before : List (List Char)) :
    dropIdle relative (name.toList :: before) = name.toList :: before := by
  rw [dropIdle, if_neg]
  rintro (empty | ⟨dot, -⟩)
  · exact h.nonempty (String.toList_inj.1 empty)
  · exact h.solid (String.toList_inj.1 dot)

theorem ofList_body (path : String) :
    String.ofList (if isAbsolute path then '/' :: Text.joinWith '/' (body path)
      else Text.joinWith '/' (body path)) = path := by
  apply String.toList_inj.1
  rw [String.toList_ofList, body]
  split
  · next absolute =>
    rw [isAbsolute, decide_eq_true_eq] at absolute
    obtain ⟨rest, text⟩ := List.head?_eq_some_iff.1 absolute
    rw [text]
    exact congrArg ('/' :: ·) (Text.joinWith_splitOn '/' rest)
  · exact Text.joinWith_splitOn '/' path.toList

theorem body_slash {base name : String} (nonempty : base ≠ "") (plain : '/' ∉ name.toList) :
    body (base ++ "/" ++ name) = body base ++ [name.toList] := by
  have text : (base ++ "/" ++ name).toList = base.toList ++ '/' :: name.toList := by simp
  have parts : Text.splitOn '/' (base ++ "/" ++ name).toList =
      Text.splitOn '/' base.toList ++ [name.toList] := by
    rw [text, Text.splitOn_append, Text.splitOn_of_not_mem plain]
  rw [body, body, String.append_assoc, isAbsolute_append nonempty, ← String.append_assoc, parts]
  split
  · exact List.tail_append_of_ne_nil (Text.splitOn_ne_nil '/' base.toList)
  · rfl

section

variable {name : String}

theorem body_join (h : IsName name) (base : String) :
    ∃ front, body (join base name) = front ++ [name.toList] := by
  by_cases nonempty : base = ""
  · refine ⟨[], ?_⟩
    rw [nonempty, join_empty, body, isAbsolute_of_isName h, Text.splitOn_of_not_mem h.plain]
    rfl
  · obtain ⟨start, -, eq, -⟩ := exists_join h nonempty
    rw [eq]
    by_cases top : start = ""
    · refine ⟨[], ?_⟩
      have text : ("" ++ "/" ++ name).toList = '/' :: name.toList := by simp
      have absolute : isAbsolute ("" ++ "/" ++ name) = true := by
        rw [isAbsolute, text]
        rfl
      rw [top, body, absolute, text, Text.splitOn, Text.splitOn_of_not_mem h.plain]
      rfl
    · exact ⟨_, body_slash top h.plain⟩

theorem parent?_join {outer : String} (ho : IsLastName outer) (h : IsLastName name) (base : String) :
    parent? (join (join base outer) name) = some (join base outer) := by
  have nonempty := join_ne_empty ho.toIsName base
  have eq : join (join base outer) name = join base outer ++ "/" ++ name := by
    rw [join, isAbsolute_of_isName h.toIsName, endsWithSlash_join ho.toIsName]
    simp [nonempty]
  have absolute : isAbsolute (join base outer ++ "/" ++ name) = isAbsolute (join base outer) := by
    rw [String.append_assoc, isAbsolute_append nonempty]
  obtain ⟨front, parts⟩ := body_join ho.toIsName base
  have before : (body (join base outer)).reverse = outer.toList :: front.reverse := by
    rw [parts, List.reverse_append]
    rfl
  have all : pieces (join base outer ++ "/" ++ name) =
      name.toList :: (body (join base outer)).reverse := by
    change dropIdle _ (body (join base outer ++ "/" ++ name)).reverse = _
    rw [body_slash nonempty h.plain, List.reverse_append]
    exact dropIdle_of_isLastName h _ _
  rw [eq, parent?, all]
  dsimp only
  rw [absolute, before, dropIdle_of_isLastName ho, ← before, List.reverse_reverse, ofList_body]

theorem join_right_inj {other : String} (h : IsName name) (ho : IsName other) (base : String) :
    join base name = join base other ↔ name = other := by
  refine ⟨fun same => ?_, fun same => same ▸ rfl⟩
  have last := congrArg names same
  rw [names_join h, names_join ho] at last
  exact List.singleton_inj.1 (List.append_cancel_left last)

end

end Path

namespace Location

theorem path_cons (name : String) (outer : Location) :
    path (name :: outer) = (if outer = [] then "" else path outer) ++ "/" ++ name := by
  rw [path, List.reverse_cons]
  split
  · next top => simp [top]
  · next inside =>
    have above : outer.reverse ≠ [] := by simpa using inside
    rw [String.intercalate_append_of_ne_nil above (List.cons_ne_nil name []), path]
    simp [String.append_assoc]

theorem isAbsolute_path (location : Location) : Path.isAbsolute (path location) = true := by
  rw [Path.isAbsolute, path, String.toList_append]
  rfl

theorem path_ne_empty (location : Location) : path location ≠ "" := by
  intro empty
  have absolute := isAbsolute_path location
  rw [empty] at absolute
  cases absolute

theorem names_path {location : Location} (h : ∀ name ∈ location, Path.IsName name) :
    Path.names (path location) = location.reverse := by
  induction location with
  | nil => rfl
  | cons name outer ih =>
    have last := Path.names_of_isName (h name List.mem_cons_self)
    have above := ih fun other ho => h other (List.mem_cons_of_mem name ho)
    rw [path_cons, Path.names_slash, last, List.reverse_cons, ← above]
    split
    · next top => rw [top]; rfl
    · rfl

theorem nul_notMem_path {location : Location} (h : ∀ name ∈ location, Path.IsName name) :
    '\x00' ∉ (path location).toList := by
  induction location with
  | nil => decide
  | cons name outer ih =>
    have last := (h name List.mem_cons_self).noNul
    have above := ih fun other ho => h other (List.mem_cons_of_mem name ho)
    rw [path_cons]
    split <;> simp [last, above]

end Location

end SettingsSweep
