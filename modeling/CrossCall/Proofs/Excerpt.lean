import CrossCall.Proofs.CallSearch
import CrossCall.Proofs.CursorWalk
import CrossCall.Proofs.Linking
import CrossCall.Proofs.Offset

/-! Texts of parts. The text of a part and its name are cut out of the file by the byte offsets of a
node, counted in characters. Each byte beyond the first one of a character before the node moves the
cut on by one character, and each one in the node makes it longer by one, so the text is that of the
node where all characters up to its end take one byte. -/
namespace CrossCall.Registration

variable {src : Source} {t : Tree} {pre s post name : String} {fs : Files} {parse : Parser}
  {paths : List String} {r : Registrations} {e : Extraction} {c : Component}

/-! ### Characters and bytes -/

/-- The bytes of a text beyond one for each character. -/
def extraBytes (s : String) : Nat := s.utf8ByteSize - s.length

/-- Every character takes one byte. -/
def Narrow (s : String) : Prop := ∀ c ∈ s.toList, c.val ≤ 127

theorem length_le_utf8Len (cs : List Char) : cs.length ≤ String.utf8Len cs := by
  induction cs with
  | nil => exact Nat.zero_le _
  | cons c rest ih =>
    have hpos := c.utf8Size_pos
    rw [String.utf8Len_cons, List.length_cons]
    omega

theorem utf8Len_eq_length_iff (cs : List Char) :
    String.utf8Len cs = cs.length ↔ ∀ c ∈ cs, c.val ≤ 127 := by
  induction cs with
  | nil => simp
  | cons c rest ih =>
    have hpos := c.utf8Size_pos
    have hrest := length_le_utf8Len rest
    rw [String.utf8Len_cons, List.length_cons, List.forall_mem_cons, ← ih,
      ← Char.utf8Size_eq_one_iff]
    omega

theorem utf8ByteSize_eq_utf8Len (s : String) : s.utf8ByteSize = String.utf8Len s.toList := by
  rw [← String.utf8ByteSize_ofList, String.ofList_toList]

theorem utf8ByteSize_eq (s : String) : s.utf8ByteSize = s.length + extraBytes s := by
  have hle := length_le_utf8Len s.toList
  rw [← utf8ByteSize_eq_utf8Len, String.length_toList] at hle
  rw [extraBytes, Nat.add_sub_cancel' hle]

theorem extraBytes_eq_zero_iff : extraBytes s = 0 ↔ Narrow s := by
  rw [Narrow, ← utf8Len_eq_length_iff, ← utf8ByteSize_eq_utf8Len, String.length_toList,
    utf8ByteSize_eq s]
  omega

/-! ### Excerpts -/

/-- All characters before a part take one byte, and so do its own, unless the text ends with it. -/
def NarrowUpTo (pre s post : String) : Prop := Narrow pre ∧ (Narrow s ∨ post = "")

/-- A text has a part in one place only. -/
def StandsOnce (s whole : String) : Prop :=
  ∀ pre post pre' post', whole = pre ++ s ++ post → whole = pre' ++ s ++ post' → pre = pre'

theorem toList_excerpt (h : src.Cut t.start t.stop pre s post) : (excerpt src t).toList =
    ((s ++ post).toList.drop (extraBytes pre)).take (t.stop - t.start) := by
  have hstart : t.start = pre.toList.length + extraBytes pre := by
    rw [← h.start, utf8ByteSize_eq, String.length_toList]
  rw [excerpt, String.toList_ofList, h.text, String.append_assoc, String.toList_append,
    List.drop_take]
  congr 1
  rw [hstart, ← List.drop_drop, List.drop_left]

/-- A node is as long as its text, or longer if it ends behind the text. -/
theorem length_of_cut (h : src.Cut t.start t.stop pre s post) :
    s.length + extraBytes s = t.stop - t.start ∨ s.length + extraBytes s ≤ t.stop - t.start ∧
    post = "" := by
  have hsize := congrArg String.utf8ByteSize h.text
  have hstop := h.stop
  rw [String.utf8ByteSize_append, String.utf8ByteSize_append, h.start] at hsize
  rw [utf8ByteSize_eq s] at hsize hstop
  by_cases hpost : post.utf8ByteSize = 0
  · right
    exact ⟨by omega, by simpa using hpost⟩
  · left
    omega

theorem excerpt_of_narrowUpTo (h : src.Cut t.start t.stop pre s post)
    (hnarrow : NarrowUpTo pre s post) :
    excerpt src t = s := by
  rw [← String.toList_inj, toList_excerpt h, extraBytes_eq_zero_iff.mpr hnarrow.1, List.drop_zero,
    String.toList_append]
  have hlength := length_of_cut h
  rw [← String.length_toList] at hlength
  by_cases hpost : post = ""
  · rw [hpost, String.toList_empty, List.append_nil, List.take_of_length_le (by omega)]
  · have hextra := extraBytes_eq_zero_iff.mpr (hnarrow.2.resolve_right hpost)
    have hend : t.stop - t.start = s.toList.length := by
      have hsame := hlength.resolve_right fun hlast => hpost hlast.2
      omega
    rw [hend, List.take_left]

/-- An excerpt that is the same as the part stands there behind the characters that the cut
skips. -/
theorem exists_place (h : src.Cut t.start t.stop pre s post) (hsame : excerpt src t = s) :
    ∃ rest, src.text =
      pre ++ String.ofList ((s ++ post).toList.take (extraBytes pre)) ++ s ++ rest := by
  have hcut := toList_excerpt h
  rw [hsame] at hcut
  refine ⟨String.ofList (((s ++ post).toList.drop (extraBytes pre)).drop (t.stop - t.start)), ?_⟩
  rw [h.text, String.append_assoc, String.append_assoc, String.append_assoc,
    String.append_right_inj, ← String.toList_inj, ← String.append_assoc,
    String.toList_append (t := String.ofList _), String.toList_append (t := s), hcut,
    String.toList_ofList, String.toList_ofList, List.append_assoc, List.take_append_drop,
    List.take_append_drop]

theorem narrowUpTo_of_excerpt (h : src.Cut t.start t.stop pre s post) (hs : s ≠ "")
    (hone : StandsOnce s src.text) (hsame : excerpt src t = s) : NarrowUpTo pre s post := by
  have hbefore : extraBytes pre = 0 := by
    obtain ⟨rest, hplace⟩ := exists_place h hsame
    have hskipped := congrArg String.toList (hone _ _ _ _ h.text hplace)
    rw [String.toList_append, List.self_eq_append_right, String.toList_ofList,
      List.take_eq_nil_iff] at hskipped
    exact hskipped.resolve_right (by simp [hs])
  refine ⟨extraBytes_eq_zero_iff.mp hbefore, ?_⟩
  rcases length_of_cut h with hlength | ⟨-, hpost⟩
  · have hcut := toList_excerpt h
    rw [hsame, hbefore, List.drop_zero, String.toList_append, ← hlength, ← String.length_toList,
      List.take_length_add_append, List.self_eq_append_right, List.take_eq_nil_iff] at hcut
    exact hcut.imp extraBytes_eq_zero_iff.mp fun hpost => by simpa using hpost
  · exact .inr hpost

theorem excerpt_of_empty (h : src.textOf? t = some "") : excerpt src t = "" := by
  have hbytes : src.bytes.extract t.start t.stop = ByteArray.empty := Source.between?_eq_some.mp h
  have hend : min t.stop src.text.utf8ByteSize ≤ t.start := ByteArray.extract_eq_empty_iff.mp hbytes
  rw [utf8ByteSize_eq, ← String.length_toList] at hend
  have hnone : (src.text.toList.take t.stop).drop t.start = [] := by
    rw [List.drop_eq_nil_iff, List.length_take]
    omega
  rw [excerpt, hnone, String.ofList_nil]

/-- What a field shows in place of a part: as many characters as the node has bytes, from a place
that lies too far to the right by the extra bytes before it. -/
structure Moved (src : Source) (t : Tree) (field pre s post : String) : Prop where
  cut : src.Cut t.start t.stop pre s post
  characters : field.toList = ((s ++ post).toList.drop (extraBytes pre)).take (t.stop - t.start)
  same_of_narrow : NarrowUpTo pre s post → field = s
  narrow_of_same : StandsOnce s src.text → field = s → NarrowUpTo pre s post

/-- A field shows a node: nothing for an empty one, and else what stands where the cut is moved
to. -/
def Shows (src : Source) (t : Tree) (field : String) : Prop :=
  ∀ s, src.textOf? t = some s →
    s = "" ∧ field = "" ∨ s ≠ "" ∧ ∃ pre post, Moved src t field pre s post

theorem shows_excerpt (src : Source) (t : Tree) : Shows src t (excerpt src t) := by
  intro s hs
  by_cases hempty : s = ""
  · subst hempty
    exact .inl ⟨rfl, excerpt_of_empty hs⟩
  · rw [Source.textOf?_eq] at hs
    obtain ⟨pre, post, hcut⟩ := Source.exists_cut hs hempty
    exact .inr ⟨hempty, pre, post, hcut, toList_excerpt hcut, excerpt_of_narrowUpTo hcut,
      narrowUpTo_of_excerpt hcut hempty⟩

/-! ### Names -/

/-- A name is the excerpt of an identifier in a node. -/
def NamedIn (src : Source) (t : Tree) (name : String) : Prop :=
  ∃ i ∈ t.preorder, i.kind = "identifier" ∧ excerpt src i = name

theorem NamedIn.of_child {d : Tree} (hd : d ∈ t.children) (h : NamedIn src d name) :
    NamedIn src t name := by
  obtain ⟨i, hi, hname⟩ := h
  exact ⟨i, Tree.mem_preorder_trans hi t (Tree.child_mem_preorder hd), hname⟩

theorem namedIn_self (hkind : t.kind = "identifier") : NamedIn src t (excerpt src t) :=
  ⟨t, Tree.mem_preorder_self t, hkind, rfl⟩

theorem namedIn_of_identifierIn? (h : identifierIn? src t = some name) : NamedIn src t name := by
  obtain ⟨i, hi, rfl⟩ := Option.map_eq_some_iff.mp h
  have hkind : i.kind = "identifier" := by simpa [ofKind] using List.find?_some hi
  exact (namedIn_self hkind).of_child (List.mem_of_find?_eq_some hi)

theorem namedIn_of_variableName? (h : variableName? src t = some name) : NamedIn src t name := by
  obtain ⟨c, hc, h⟩ := List.exists_of_findSome?_eq_some h
  refine .of_child hc ?_
  split at h
  · obtain ⟨d, hd, h⟩ := List.exists_of_findSome?_eq_some h
    refine .of_child hd ?_
    split at h
    · exact namedIn_of_identifierIn? h
    · obtain ⟨hkind, h⟩ := Option.ite_none_right_eq_some.mp h
      exact Option.some.inj h ▸ namedIn_self hkind
  · obtain ⟨hkind, h⟩ := Option.ite_none_right_eq_some.mp h
    exact Option.some.inj h ▸ namedIn_self hkind

theorem namedIn_of_functionName? (h : functionName? src t = some name) : NamedIn src t name := by
  obtain ⟨c, hc, h⟩ := List.exists_of_findSome?_eq_some h
  refine .of_child hc ?_
  split at h
  · exact namedIn_of_identifierIn? h
  · obtain ⟨-, h⟩ := Option.ite_none_right_eq_some.mp h
    obtain ⟨d, hd, h⟩ := List.exists_of_findSome?_eq_some h
    obtain ⟨-, h⟩ := Option.ite_none_right_eq_some.mp h
    exact (namedIn_of_identifierIn? h).of_child hd

/-! ### Parts of files -/

theorem mem_all_iff : c ∈ e.all ↔ ∃ role, c ∈ e.ofRole role := by
  simp only [Extraction.all, List.mem_append, or_assoc]
  constructor
  · rintro (h | h | h | h)
    · exact ⟨.methodTable, h⟩
    · exact ⟨.moduleDefinition, h⟩
    · exact ⟨.initFunction, h⟩
    · exact ⟨.interfaceFunction, h⟩
  · rintro ⟨_ | _ | _ | _, h⟩
    · exact .inl h
    · exact .inr (.inl h)
    · exact .inr (.inr (.inl h))
    · exact .inr (.inr (.inr h))

/-- Every part of a list of files is a part of one of them. -/
theorem exists_file (h : ofFiles fs parse paths = .ok r) (hc : c ∈ r.parts.all) :
    ∃ path ∈ paths, ∃ text p role, fs.read .drop path = .ok text ∧ parse text = some p ∧
      MadeOf ⟨text⟩ path role p.root.walk c := by
  obtain ⟨es, hes, hr⟩ := Flow.bind_eq_ok.mp h
  cases hr
  obtain ⟨role, hc⟩ := mem_all_iff.mp hc
  rw [ofRole_merge] at hc
  obtain ⟨e, he, hc⟩ := List.mem_flatMap.mp hc
  obtain ⟨path, hpath, hextract⟩ := Embedding.exists_of_mem_mapM hes he
  obtain ⟨text, p, hread, hparse, rfl⟩ := extractFile_eq_ok hextract
  exact ⟨path, hpath, text, p, role, hread, hparse, madeOf_of_mem_extract hc⟩

/-- Every part of the files has the offsets of a node of its file and shows that node, and its name
shows an identifier in the node. Both are what the node and the identifier read if all characters up
to their end take one byte, and where their text stands only once in the file they are not unless
these do. -/
theorem component_shows (h : ofFiles fs parse paths = .ok r) (hc : c ∈ r.parts.all) :
    ∃ text p, c.file ∈ paths ∧ fs.read .drop c.file = .ok text ∧ parse text = some p ∧
    ∃ t ∈ p.root.preorder,
      c.startByte = t.start ∧ c.endByte = t.stop ∧ Shows ⟨text⟩ t c.code ∧
        ∀ name, c.name = some name →
        ∃ i ∈ t.preorder, i.kind = "identifier" ∧ Shows ⟨text⟩ i name := by
  obtain ⟨path, hpath, text, p, role, hread, hparse, t, ht, n, hn, rfl⟩ := exists_file h hc
  rw [Tree.walk_eq_preorder] at ht
  refine ⟨text, p, hpath, hread, hparse, t, ht, rfl, rfl, shows_excerpt _ _, fun name hname => ?_⟩
  have hnamed : NamedIn ⟨text⟩ t name := by
    rcases hn with rfl | rfl
    · exact namedIn_of_variableName? hname
    · exact namedIn_of_functionName? hname
  obtain ⟨i, hi, hkind, rfl⟩ := hnamed
  exact ⟨i, hi, hkind, shows_excerpt _ _⟩

/-! ### A wide character in a comment -/

def wideText : String := "/*é*/static PyMethodDef t[]=\x7b\x7d;"

def wideDeclaration : Tree :=
  .node "declaration" 6 32 none [
    .node "storage_class_specifier" 6 12 none [], .node "type_identifier" 13 24 (some "type") [],
    .node "init_declarator" 25 31 (some "declarator") [
      .node "array_declarator" 25 28 (some "declarator") [
        .node "identifier" 25 26 (some "declarator") []],
      .node "initializer_list" 29 31 (some "value") []]]

def wideTree : Tree :=
  .node "translation_unit" 0 32 none [.node "comment" 0 6 none [], wideDeclaration]

def wideFiles : Files := { contents := ⟨[("/a.c", wideText.toUTF8)]⟩ }

def wideParser : Parser := fun _ => some ⟨wideTree, false⟩

/-- Text and name of the part begin one character too late. -/
def wideTable : Component where
  role := .methodTable
  name := some "["
  code := "tatic PyMethodDef t[]=\x7b\x7d;"
  file := "/a.c"
  startLine := 1
  endLine := 1
  startByte := 6
  endByte := 32

theorem ofFiles_wide :
    ofFiles wideFiles wideParser ["/a.c"] = .ok (merge [{ methodTables := [wideTable] }]) :=
  eq_ok_of_toOption (by decide +kernel)

theorem read_wide : wideFiles.read .drop "/a.c" = .ok wideText :=
  eq_ok_of_toOption (by decide +kernel)

theorem wideTable_mem :
    wideTable ∈ (merge [{ methodTables := [wideTable] }]).parts.all := by decide +kernel

theorem between?_wide :
    Source.between? ⟨wideText⟩ 6 32 = some "static PyMethodDef t[]=\x7b\x7d;" := by decide +kernel

/-- The part shows the declaration, which stands behind the comment. -/
theorem component_shows_wide :
    ∃ r, ofFiles wideFiles wideParser ["/a.c"] = .ok r ∧ wideTable ∈ r.parts.all ∧
    ∃ t ∈ wideTree.preorder, t.start = 6 ∧ t.stop = 32 ∧ ∃ pre post,
      Moved ⟨wideText⟩ t wideTable.code pre "static PyMethodDef t[]=\x7b\x7d;" post := by
  obtain ⟨text, p, -, hread, hparse, t, ht, hstart, hstop, hcode, -⟩ :=
    component_shows ofFiles_wide wideTable_mem
  obtain rfl : wideText = text := Except.ok.inj (read_wide.symm.trans hread)
  cases hparse
  have htext : Source.textOf? ⟨wideText⟩ t = some "static PyMethodDef t[]=\x7b\x7d;" := by
    rw [Source.textOf?_eq, ← hstart, ← hstop]
    exact between?_wide
  refine ⟨_, ofFiles_wide, wideTable_mem, t, ht, hstart.symm, hstop.symm, ?_⟩
  rcases hcode _ htext with ⟨hempty, -⟩ | ⟨-, hmoved⟩
  · exact absurd hempty (by decide)
  · exact hmoved

/-- The text of the part is not that of its node, nor its name that of the only identifier. -/
theorem exists_component_moved :
    ∃ r, ofFiles wideFiles wideParser ["/a.c"] = .ok r ∧ ∃ c ∈ r.parts.all,
    ∃ t ∈ wideTree.preorder, c.startByte = t.start ∧ c.endByte = t.stop ∧
    ∃ i ∈ t.preorder, i.kind = "identifier" ∧
      wideTree.preorder.countP (ofKind "identifier") = 1 ∧
        Source.textOf? ⟨wideText⟩ t = some "static PyMethodDef t[]=\x7b\x7d;" ∧
        Source.textOf? ⟨wideText⟩ i = some "t" ∧
          c.code = "tatic PyMethodDef t[]=\x7b\x7d;" ∧ c.name = some "[" := by
  have hdeclaration : wideDeclaration ∈ wideTree.preorder :=
    Tree.child_mem_preorder (.tail _ (.head _))
  refine ⟨_, ofFiles_wide, wideTable, wideTable_mem, wideDeclaration, hdeclaration, rfl, rfl, ?_⟩
  have hidentifier : .node "identifier" 25 26 (some "declarator") [] ∈
      wideDeclaration.preorder := by
    simp [wideDeclaration, Tree.preorder, Tree.preorderAll]
  exact ⟨_, hidentifier, rfl, by decide +kernel, between?_wide, by decide +kernel, rfl, rfl⟩

end CrossCall.Registration
