import CrossCall.Proofs.Lines
import CrossCall.Proofs.Linking

/-! Initialisers of module definitions. The method table of a definition is the name between the
last comma and the closing brace. In a list of names, numbers and quoted texts this is the last
field, if it is a name and no comma follows it, whatever the fifth field is. -/
namespace CrossCall.Registration

variable {c : Char} {cs xs ys zs lead tail rest w : List Char} {name code : String}

/-! ### Words between blanks -/

theorem isWord_of_isBlank (h : Text.isBlank c) : Text.isWord c = false := by
  have hcodes : ∀ n ∈ [9, 10, 11, 12, 13, 0x1c, 0x1d, 0x1e, 0x1f, 0x20, 0x85, 0xa0, 0x1680, 0x2000,
      0x2001, 0x2002, 0x2003, 0x2004, 0x2005, 0x2006, 0x2007, 0x2008, 0x2009, 0x200a, 0x2028,
      0x2029, 0x202f, 0x205f, 0x3000], Text.isWord (Char.ofNat n) = false := by
    decide +kernel
  rw [← Char.ofNat_toNat c]
  apply hcodes
  simp only [Text.isBlank, Bool.or_eq_true, Bool.and_eq_true, decide_eq_true_eq, beq_iff_eq] at h
  simp only [List.mem_cons, List.not_mem_nil, or_false]
  omega

theorem isBlank_of_isWord (h : Text.isWord c) : Text.isBlank c = false := by
  by_contra hblank
  simp [isWord_of_isBlank (by simpa using hblank)] at h

/-- A word with blanks around it. -/
def Padded (cs w : List Char) : Prop :=
  ∃ before after, (∀ c ∈ before, Text.isBlank c) ∧ (∀ c ∈ after, Text.isBlank c) ∧ w ≠ [] ∧
    (∀ c ∈ w, Text.isWord c) ∧ cs = before ++ w ++ after

theorem Padded.blank_or_word (h : Padded cs w) (hc : c ∈ cs) : Text.isBlank c ∨ Text.isWord c := by
  obtain ⟨before, after, hbefore, hafter, -, hword, rfl⟩ := h
  rcases List.mem_append.mp hc with hc | hc
  · exact (List.mem_append.mp hc).imp (hbefore c) (hword c)
  · exact .inl (hafter c hc)

theorem Padded.notMem (h : Padded cs w) (hblank : Text.isBlank c = false)
    (hword : Text.isWord c = false) : c ∉ cs := by
  intro hc
  rcases h.blank_or_word hc with h | h
  · simp [hblank] at h
  · simp [hword] at h

/-- The word is what is not blank. -/
theorem Padded.filter_isWord (h : Padded cs w) : cs.filter Text.isWord = w := by
  obtain ⟨before, after, hbefore, hafter, -, hword, rfl⟩ := h
  have hnone : ∀ {bs : List Char}, (∀ c ∈ bs, Text.isBlank c) → bs.filter Text.isWord = [] :=
    fun hbs => List.filter_eq_nil_iff.mpr fun c hc => by simp [isWord_of_isBlank (hbs c hc)]
  rw [List.filter_append, List.filter_append, hnone hbefore, hnone hafter,
    List.filter_eq_self.mpr hword, List.nil_append, List.append_nil]

theorem padded_iff (hxs : ∀ c ∈ xs, Text.isBlank c) (hzs : ∀ c ∈ zs, Text.isBlank c) (hne : cs ≠ [])
    (hcs : ∀ c ∈ cs, Text.isBlank c = false) :
    Padded (xs ++ cs ++ zs) w ↔ (∀ c ∈ cs, Text.isWord c) ∧ cs = w := by
  constructor
  · intro h
    have hword : ∀ c ∈ cs, Text.isWord c := fun c hc =>
      (h.blank_or_word (by simp [hc])).resolve_left (by simp [hcs c hc])
    have hpadded : Padded (xs ++ cs ++ zs) cs := ⟨xs, zs, hxs, hzs, hne, hword, rfl⟩
    exact ⟨hword, by rw [← hpadded.filter_isWord, h.filter_isWord]⟩
  · rintro ⟨hword, rfl⟩
    exact ⟨xs, zs, hxs, hzs, hne, hword, rfl⟩

theorem not_padded_of_blank (h : ∀ c ∈ cs, Text.isBlank c) : ¬Padded cs w := by
  rintro ⟨xs, zs, -, -, hne, hword, rfl⟩
  obtain ⟨c, hc⟩ := List.exists_mem_of_ne_nil w hne
  have hblank := h c (by simp [hc])
  simp [isBlank_of_isWord (hword c hc)] at hblank

/-! ### The pattern -/

theorem blanks_append (hxs : ∀ c ∈ xs, Text.isBlank c)
    (hhead : ∀ c ∈ ys.head?, Text.isBlank c = false) :
    blanks (xs ++ ys) = ys := by
  rw [blanks, List.dropWhile_append_of_pos hxs]
  cases ys with
  | nil => rfl
  | cons y ys => exact List.dropWhile_cons_of_neg (by simp [hhead y rfl])

theorem exists_blanks (cs : List Char) : ∃ xs, (∀ c ∈ xs, Text.isBlank c) ∧ cs = xs ++ blanks cs :=
  ⟨cs.takeWhile Text.isBlank, fun _ => List.mem_takeWhile_imp, List.takeWhile_append_dropWhile.symm⟩

theorem blankThen_eq_some (hc : Text.isBlank c = false) :
    blankThen c cs = some rest ↔ ∃ xs, (∀ x ∈ xs, Text.isBlank x) ∧ cs = xs ++ c :: rest := by
  constructor
  · intro h
    obtain ⟨xs, hxs, hcs⟩ := exists_blanks cs
    unfold blankThen at h
    cases hblanks : blanks cs with
    | nil => simp [hblanks] at h
    | cons d ds =>
      simp only [hblanks] at h
      obtain ⟨hd, hds⟩ := Option.ite_none_right_eq_some.mp h
      exact ⟨xs, hxs, by rw [hcs, hblanks, hd, Option.some.inj hds]⟩
  · rintro ⟨xs, hxs, rfl⟩
    rw [blankThen, blanks_append hxs (by simp [hc])]
    exact if_pos rfl

theorem exists_of_blankWord (h : blankWord cs = some (name, rest)) :
    ∃ xs w, (∀ x ∈ xs, Text.isBlank x) ∧ w ≠ [] ∧
    (∀ x ∈ w, Text.isWord x) ∧ cs = xs ++ w ++ rest ∧ name = String.ofList w := by
  obtain ⟨xs, hxs, hcs⟩ := exists_blanks cs
  obtain ⟨hne, h⟩ := Option.ite_none_left_eq_some.mp h
  cases h
  refine ⟨xs, _, hxs, by simpa using hne, fun _ => List.mem_takeWhile_imp, ?_, rfl⟩
  have hprefix := List.prefix_iff_eq_append.mp (List.takeWhile_prefix Text.isWord (l := blanks cs))
  rw [List.append_assoc, hprefix]
  exact hcs

theorem blankWord_append (hxs : ∀ x ∈ xs, Text.isBlank x) (hne : w ≠ [])
    (hw : ∀ x ∈ w, Text.isWord x) (hhead : ∀ x ∈ rest.head?, Text.isWord x = false) :
    blankWord (xs ++ w ++ rest) = some (String.ofList w, rest) := by
  obtain ⟨d, ds, rfl⟩ := List.exists_cons_of_ne_nil hne
  have hskip : blanks (xs ++ d :: ds ++ rest) = d :: ds ++ rest := by
    rw [List.append_assoc]
    exact blanks_append hxs (by simpa using isBlank_of_isWord (hw d List.mem_cons_self))
  have htake : (d :: ds ++ rest).takeWhile Text.isWord = d :: ds := by
    rw [List.takeWhile_append_of_pos hw]
    cases rest with
    | nil => simp
    | cons x rest => simp [hhead x rfl]
  simp only [blankWord, hskip, htake]
  rw [if_neg (by simp), List.drop_left]

theorem literal_comma : literal "," cs = some rest ↔ cs = ',' :: rest := by
  have hone : ",".length = 1 := rfl
  cases cs with
  | nil => simp [literal]
  | cons c cs => simp [literal, hone, eq_comm (a := ',')]

/-- The pattern reads a comma, a word between blanks and a closing brace. -/
theorem lastName_eq_some : lastName cs = some (name, rest) ↔
    ∃ zs w, Padded zs w ∧ cs = ',' :: (zs ++ '\x7d' :: rest) ∧ name = String.ofList w := by
  have hbrace : Text.isBlank '\x7d' = false := by decide
  constructor
  · intro h
    obtain ⟨read, hcomma, h⟩ := Option.bind_eq_some_iff.mp h
    obtain ⟨⟨_, left⟩, hword, h⟩ := Option.bind_eq_some_iff.mp h
    obtain ⟨_, hclose, h⟩ := Option.bind_eq_some_iff.mp h
    cases h
    obtain ⟨before, w, hbefore, hne, hw, rfl, rfl⟩ := exists_of_blankWord hword
    obtain ⟨after, hafter, rfl⟩ := (blankThen_eq_some hbrace).mp hclose
    refine ⟨before ++ w ++ after, w, ⟨before, after, hbefore, hafter, hne, hw, rfl⟩, ?_, rfl⟩
    rw [literal_comma.mp hcomma, List.append_assoc (before ++ w)]
  · rintro ⟨zs, w, ⟨before, after, hbefore, hafter, hne, hw, rfl⟩, rfl, rfl⟩
    have hhead : ∀ c ∈ (after ++ '\x7d' :: rest).head?, Text.isWord c = false := by
      cases after with
      | nil => simpa using (by decide : Text.isWord '\x7d' = false)
      | cons d ds => simpa using isWord_of_isBlank (hafter d List.mem_cons_self)
    have hword := blankWord_append hbefore hne hw hhead
    rw [← List.append_assoc] at hword
    have hclose : blankThen '\x7d' (after ++ '\x7d' :: rest) = some rest :=
      (blankThen_eq_some hbrace).mpr ⟨after, hafter, rfl⟩
    simp only [lastName, literal_comma.mpr rfl, Option.bind_eq_bind, Option.bind_some, hword,
      hclose, Option.pure_def]

/-! ### The last word before a brace -/

/-- A text ends in a comma and a word between blanks. -/
def EndsInWord (cs w : List Char) : Prop := ∃ lead zs, cs = lead ++ ',' :: zs ∧ Padded zs w

theorem endsInWord_cons : EndsInWord (c :: cs) w ↔ c = ',' ∧ Padded cs w ∨ EndsInWord cs w := by
  constructor
  · rintro ⟨_ | ⟨d, lead⟩, zs, heq, hzs⟩
    · obtain ⟨hc, rfl⟩ := List.cons.inj heq
      exact .inl ⟨hc, hzs⟩
    · exact .inr ⟨lead, zs, (List.cons.inj heq).2, hzs⟩
  · rintro (⟨rfl, hcs⟩ | ⟨lead, zs, rfl, hzs⟩)
    · exact ⟨[], cs, rfl, hcs⟩
    · exact ⟨c :: lead, zs, rfl, hzs⟩

theorem not_endsInWord_nil : ¬EndsInWord [] w := by
  rintro ⟨lead, zs, heq, -⟩
  simp at heq

/-- Behind a character that can stand neither in a word nor in blanks there is no other place for
the comma. -/
theorem endsInWord_append (hblank : Text.isBlank c = false) (hword : Text.isWord c = false)
    (hzs : ',' ∉ zs) :
    EndsInWord (ys ++ c :: zs) w ↔ c = ',' ∧ Padded zs w := by
  constructor
  · rintro ⟨lead, vs, heq, hvs⟩
    have hc : c ∉ vs := hvs.notMem hblank hword
    rcases List.append_eq_append_iff.mp heq with ⟨_ | ⟨d, as⟩, -, has⟩ | ⟨_ | ⟨d, bs⟩, -, hbs⟩
    · obtain ⟨rfl, rfl⟩ := List.cons.inj has
      exact ⟨rfl, hvs⟩
    · simp [(List.cons.inj has).2] at hzs
    · obtain ⟨rfl, rfl⟩ := List.cons.inj hbs
      exact ⟨rfl, hvs⟩
    · simp [(List.cons.inj hbs).2] at hc
  · rintro ⟨rfl, h⟩
    exact ⟨ys, zs, rfl, h⟩

theorem EndsInWord.unique {w' : List Char} (h : EndsInWord cs w) (h' : EndsInWord cs w') :
    w = w' := by
  obtain ⟨lead, zs, rfl, hzs⟩ := h
  have hcomma : ',' ∉ zs := hzs.notMem (by decide) (by decide)
  obtain ⟨-, hzs'⟩ := (endsInWord_append (by decide) (by decide) hcomma).mp h'
  rw [← hzs.filter_isWord, hzs'.filter_isWord]

/-- Before the only brace the pattern reads up to this brace. -/
theorem lastName_before (hcs : '\x7d' ∉ cs) (htail : '\x7d' ∉ tail) :
    lastName (c :: (cs ++ '\x7d' :: tail)) = some (name, rest) ↔
      c = ',' ∧ rest = tail ∧ ∃ w, Padded cs w ∧ name = String.ofList w := by
  rw [lastName_eq_some]
  constructor
  · rintro ⟨zs, w, hzs, heq, rfl⟩
    obtain ⟨hc, heq⟩ := List.cons.inj heq
    obtain ⟨rfl, -, rfl⟩ := (List.append_cons_inj_of_notMem hcs htail).mp heq
    exact ⟨hc, rfl, w, hzs, rfl⟩
  · rintro ⟨rfl, rfl, w, hw, rfl⟩
    exact ⟨cs, w, hw, rfl, rfl⟩

theorem allFrom_of_notMem (h : '\x7d' ∉ cs) : Pattern.allFrom lastName 0 cs = [] := by
  induction cs with
  | nil => rfl
  | cons c cs ih =>
    rw [Pattern.allFrom]
    cases hread : lastName (c :: cs) with
    | none => exact ih (List.not_mem_of_not_mem_cons h)
    | some read =>
      obtain ⟨zs, w, -, hcs, -⟩ := lastName_eq_some.mp hread
      simp [hcs] at h

theorem allFrom_eq_drop {α : Type} (p : Pattern α) (k : Nat) (cs : List Char) :
    Pattern.allFrom p k cs = Pattern.allFrom p 0 (cs.drop k) := by
  induction cs generalizing k with
  | nil => cases k <;> rfl
  | cons c cs ih =>
    cases k with
    | zero => rfl
    | succ k => exact ih k

/-- In a text with one brace the pattern reads the word that stands last before it, and nothing
else. -/
theorem allFrom_before (hcs : '\x7d' ∉ cs) (htail : '\x7d' ∉ tail) :
    Pattern.allFrom lastName 0 (cs ++ '\x7d' :: tail) = [] ∧ (∀ w, ¬EndsInWord cs w) ∨
      ∃ w, Pattern.allFrom lastName 0 (cs ++ '\x7d' :: tail) = [String.ofList w] ∧
      EndsInWord cs w := by
  induction cs with
  | nil =>
    have hnone : lastName ('\x7d' :: tail) = none := rfl
    rw [List.nil_append, Pattern.allFrom, hnone]
    exact .inl ⟨allFrom_of_notMem htail, fun _ => not_endsInWord_nil⟩
  | cons c cs ih =>
    have hcs := List.not_mem_of_not_mem_cons hcs
    rw [List.cons_append, Pattern.allFrom]
    cases hread : lastName (c :: (cs ++ '\x7d' :: tail)) with
    | none =>
      have hlater : ∀ w, EndsInWord cs w → EndsInWord (c :: cs) w :=
        fun w hw => endsInWord_cons.mpr (.inr hw)
      refine (ih hcs).imp (And.imp_right fun hno w hw => ?_)
        (Exists.imp fun w => And.imp_right (hlater w))
      rcases endsInWord_cons.mp hw with ⟨hc, hw⟩ | hw
      · simp [(lastName_before hcs htail).mpr ⟨hc, rfl, w, hw, rfl⟩] at hread
      · exact hno w hw
    | some read =>
      obtain ⟨hc, hrest, w, hw, hname⟩ := (lastName_before hcs htail).mp hread
      -- The search goes on behind the brace.
      have hskip : (cs ++ '\x7d' :: tail).length - read.2.length = cs.length + 1 := by
        rw [hrest, List.length_append, List.length_cons]
        omega
      have hbehind : (cs ++ '\x7d' :: tail).drop (cs.length + 1) = tail :=
        List.drop_length_add_append 1
      refine .inr ⟨w, ?_, endsInWord_cons.mpr (.inl ⟨hc, hw⟩)⟩
      dsimp only
      rw [hskip, allFrom_eq_drop, hbehind, allFrom_of_notMem htail, hname]

theorem methodTableName?_eq_some (hcode : code.toList = cs ++ '\x7d' :: tail) (hcs : '\x7d' ∉ cs)
    (htail : '\x7d' ∉ tail) : methodTableName? code = some name ↔ EndsInWord cs name.toList := by
  rw [methodTableName?, Pattern.all, hcode]
  rcases allFrom_before hcs htail with ⟨hnone, hno⟩ | ⟨w, hall, hw⟩
  · simp [hnone, hno]
  · rw [hall, List.getLast?_singleton, Option.some_inj]
    constructor
    · rintro rfl
      rwa [String.toList_ofList]
    · intro h
      rw [hw.unique h, String.ofList_toList]

/-! ### Lists of fields -/

/-- A character of a name or a number. -/
def isPlain (c : Char) : Bool := Text.isWord c || c == '.' || c == '+' || c == '-'

/-- A name, a number or a quoted text without braces. -/
inductive Token where
  | plain (cs : List Char) (nonempty : cs ≠ []) (valid : ∀ c ∈ cs, isPlain c)
  | quoted (body : List Char) (opening : '\x7b' ∉ body) (closing : '\x7d' ∉ body)

def Token.text : Token → List Char
  | plain cs _ _ => cs
  | quoted body _ _ => '"' :: body ++ ['"']

/-- What a token names, if it can be a name. -/
def Token.name? : Token → Option String
  | plain cs _ _ => if cs.all Text.isWord then some (String.ofList cs) else none
  | quoted _ _ _ => none

/-- A token with blanks around it. -/
structure Field where
  before : List Char := []
  token : Token
  after : List Char := []
  blank_before : ∀ c ∈ before, Text.isBlank c := by simp
  blank_after : ∀ c ∈ after, Text.isBlank c := by simp

def Field.text (f : Field) : List Char := f.before ++ f.token.text ++ f.after

/-- Fields with commas between them. A comma may follow the last one, with blanks behind it. -/
structure Initialiser where
  fields : List Field
  trailing : Option { blanks : List Char // ∀ c ∈ blanks, Text.isBlank c } := none

namespace Initialiser

def text (i : Initialiser) : List Char :=
  [','].intercalate (i.fields.map Field.text) ++ i.trailing.elim [] fun blanks => ',' :: blanks.1

/-- The name that stands before the closing brace. -/
def finalName? (i : Initialiser) : Option String :=
  match i.trailing with
  | none => i.fields.getLast?.bind (·.token.name?)
  | some _ => none

end Initialiser

/-- A code has one list in braces. -/
def Initialised (code : String) (i : Initialiser) : Prop :=
  ∃ lead tail, code.toList = lead ++ '\x7b' :: i.text ++ '\x7d' :: tail ∧ '\x7d' ∉ lead ∧
    '\x7d' ∉ tail

theorem notMem_of_blank (h : ∀ x ∈ cs, Text.isBlank x) (hc : Text.isBlank c = false) : c ∉ cs := by
  intro hmem
  simp [h c hmem] at hc

theorem Token.brace_notMem (t : Token) : '\x7d' ∉ t.text := by
  cases t with
  | plain cs _ hvalid => exact fun h => absurd (hvalid _ h) (by decide)
  | quoted body _ hclosing => simp [Token.text, hclosing]

theorem Field.brace_notMem (f : Field) : '\x7d' ∉ f.text := by
  simp [Field.text, f.token.brace_notMem, notMem_of_blank f.blank_before (c := '\x7d') (by decide),
    notMem_of_blank f.blank_after (c := '\x7d') (by decide)]

theorem Initialiser.brace_notMem (i : Initialiser) : '\x7d' ∉ i.text := by
  rw [Initialiser.text, List.mem_append, not_or]
  constructor
  · intro h
    rcases Text.mem_intercalate h with h | ⟨_, hfield, h⟩
    · exact absurd h (by decide)
    · obtain ⟨f, -, rfl⟩ := List.mem_map.mp hfield
      exact f.brace_notMem h
  · cases i.trailing with
    | none => exact List.not_mem_nil
    | some blanks => simpa using notMem_of_blank blanks.2 (by decide)

/-- Behind the first field a comma stands before the last one. -/
theorem exists_intercalate (f : Field) {fields : List Field} {l : Field}
    (h : fields.getLast? = some l) :
    ∃ ys, [','].intercalate ((f :: fields).map Field.text) = ys ++ ',' :: l.text := by
  induction fields generalizing f with
  | nil => cases h
  | cons g rest ih =>
    rw [List.map_cons, List.map_cons, List.intercalate_cons_cons, ← List.map_cons]
    cases rest with
    | nil =>
      cases h
      exact ⟨f.text, by simp⟩
    | cons g' rest =>
      obtain ⟨ys, hys⟩ := ih g (by simpa using h)
      exact ⟨f.text ++ [','] ++ ys, by rw [hys, List.append_assoc _ ys]⟩

theorem isBlank_of_isPlain (h : isPlain c) : Text.isBlank c = false := by
  simp only [isPlain, Bool.or_eq_true, beq_iff_eq] at h
  rcases h with ((h | rfl) | rfl) | rfl
  · exact isBlank_of_isWord h
  · decide
  · decide
  · decide

/-- A field behind a comma is read exactly if it is a name. -/
theorem endsInWord_field (f : Field) :
    EndsInWord (ys ++ ',' :: f.text) w ↔ f.token.name? = some (String.ofList w) := by
  have hbefore : ',' ∉ f.before := notMem_of_blank f.blank_before (by decide)
  have hafter : ',' ∉ f.after := notMem_of_blank f.blank_after (by decide)
  unfold Field.text
  cases f.token with
  | plain cs hne hvalid =>
    have hcs : ',' ∉ cs := fun h => absurd (hvalid _ h) (by decide)
    rw [endsInWord_append (by decide) (by decide) (by simp [Token.text, hbefore, hafter, hcs])]
    rw [Token.text,
      padded_iff f.blank_before f.blank_after hne fun c hc => isBlank_of_isPlain (hvalid c hc)]
    simp [Token.name?, String.ofList_inj]
  | quoted body hopening hclosing =>
    -- The quote behind the text is what a name would have to follow.
    have hquote : ys ++ ',' :: (f.before ++ ('"' :: body ++ ['"']) ++ f.after) =
        ys ++ ',' :: f.before ++ '"' :: body ++ '"' :: f.after := by simp
    rw [Token.text, hquote, endsInWord_append (by decide) (by decide) hafter]
    simp [Token.name?]

theorem endsInWord_text {i : Initialiser} (h : 2 ≤ i.fields.length) :
    EndsInWord (lead ++ '\x7b' :: i.text) w ↔ i.finalName? = some (String.ofList w) := by
  obtain ⟨fields, trailing⟩ := i
  cases trailing with
  | none =>
    obtain ⟨f, _, rfl, g, rest, rfl⟩ : ∃ f fs, fields = f :: fs ∧ ∃ g rest, fs = g :: rest := by
      obtain ⟨f, fs, rfl⟩ := List.exists_cons_of_length_pos (Nat.zero_lt_of_lt h)
      exact ⟨f, fs, rfl, List.exists_cons_of_length_pos (Nat.succ_lt_succ_iff.mp h)⟩
    obtain ⟨l, hl⟩ :=
      Option.isSome_iff_exists.mp (List.getLast?_isSome.mpr (List.cons_ne_nil g rest))
    obtain ⟨ys, hys⟩ := exists_intercalate f hl
    have htext : lead ++ '\x7b' :: Initialiser.text ⟨f :: g :: rest, none⟩ =
        lead ++ '\x7b' :: ys ++ ',' :: l.text := by
      rw [Initialiser.text, hys]
      simp
    rw [htext, endsInWord_field, Initialiser.finalName?, List.getLast?_cons_cons, hl]
    rfl
  | some blanks =>
    have htext : lead ++ '\x7b' :: Initialiser.text ⟨fields, some blanks⟩ =
        lead ++ '\x7b' :: [','].intercalate (fields.map Field.text) ++ ',' :: blanks.1 := by
      simp [Initialiser.text]
    rw [htext, endsInWord_append (by decide) (by decide) (notMem_of_blank blanks.2 (by decide))]
    simp [Initialiser.finalName?, not_padded_of_blank blanks.2]

/-- The name that a definition is read to have last is the one that stands before its closing
brace. -/
theorem methodTableName?_initialised {i : Initialiser} (hcode : Initialised code i)
    (h : 2 ≤ i.fields.length) :
    methodTableName? code = i.finalName? := by
  obtain ⟨lead, tail, hcode, hlead, htail⟩ := hcode
  have hbefore : '\x7d' ∉ lead ++ '\x7b' :: i.text := by simp [hlead, i.brace_notMem]
  refine Option.ext fun name => ?_
  rw [methodTableName?_eq_some hcode hbefore htail, endsInWord_text h, String.ofList_toList]

/-! ### Chains -/

/-- One part only has a name. -/
def OnlyNamed (e : Extraction) (role : Role) (name : String) (d : Component) : Prop :=
  (e.ofRole role).filter (fun c => c.name == some name) = [d]

variable {e : Extraction} {role : Role} {d : Component}

theorem OnlyNamed.named?_eq (h : OnlyNamed e role name d) : e.named? role name = some d := by
  rw [Extraction.named?, h, List.getLast?_singleton]

theorem name_of_named? (h : e.named? role name = some d) : d.name = some name := by
  simpa using (List.mem_filter.mp (List.mem_of_getLast? h)).2

theorem OnlyNamed.named?_eq_iff (h : OnlyNamed e role name d) {other : Option String} :
    other.bind (e.named? role) = some d ↔ other = some name := by
  constructor
  · intro hother
    obtain ⟨n, rfl, hn⟩ := Option.bind_eq_some_iff.mp hother
    rw [← name_of_named? hn, name_of_named? h.named?_eq]
  · rintro rfl
    exact h.named?_eq

/-- The chain of an init function has the module definition that its code creates a module from. It
has the table that the fifth field of the definition names exactly if the same name stands before
the closing brace, as it does if there are five fields and no comma behind them. Else it has the
table that stands for the name before the brace, if any. -/
theorem methodTable_of_initialiser {es : List Extraction} {init definition table : Component}
    {created listed : String} {i : Initialiser}
    (hinit : init ∈ (merge es).parts.ofRole .initFunction)
    (hcreated : createdModule? init.code = some created)
    (hdefinition : OnlyNamed (merge es).parts .moduleDefinition created definition)
    (hcode : Initialised definition.code i)
    (hfifth : i.fields[4]?.bind (·.token.name?) = some listed)
    (htable : OnlyNamed (merge es).parts .methodTable listed table) :
    (∃ c ∈ (merge es).chains, c.initFunction = init) ∧
    ∀ c ∈ (merge es).chains, c.initFunction = init →
      c.moduleDefinition = some definition ∧
        c.methodTable = i.finalName?.bind ((merge es).parts.named? .methodTable) ∧
          (c.methodTable = some table ↔ i.finalName? = some listed) ∧
            (i.fields.length = 5 → i.trailing = none → c.methodTable = some table) := by
  refine ⟨⟨_, mem_chains_merge.mpr ⟨init, hinit, rfl⟩, initFunction_link⟩, fun c hc hsame => ?_⟩
  obtain ⟨init', -, rfl⟩ := mem_chains_merge.mp hc
  rw [initFunction_link] at hsame
  subst hsame
  obtain ⟨fifth, hfifth, hlisted⟩ := Option.bind_eq_some_iff.mp hfifth
  have hfive : 4 < i.fields.length := (List.getElem?_eq_some_iff.mp hfifth).1
  have hmodule : (link (merge es).parts init').moduleDefinition = some definition := by
    rw [moduleDefinition_link, Chain.moduleReference?, initFunction_link, hcreated]
    exact hdefinition.named?_eq
  have hfound : (link (merge es).parts init').methodTable =
      i.finalName?.bind ((merge es).parts.named? .methodTable) := by
    rw [methodTable_link, Chain.tableReference?, hmodule, Option.bind_some,
      methodTableName?_initialised hcode (by omega)]
  have hiff : (link (merge es).parts init').methodTable = some table ↔
      i.finalName? = some listed := by
    rw [hfound, htable.named?_eq_iff]
  refine ⟨hmodule, hfound, hiff, fun hlength htrailing => hiff.mpr ?_⟩
  rw [Initialiser.finalName?, htrailing, List.getLast?_eq_getElem?, hlength, hfifth]
  exact hlisted

/-! ### Five fields and six -/

def listedTable : Component where
  role := .methodTable
  name := some "t"
  code := "PyMethodDef t[]=\x7b\x7d;"

def creatingInit : Component where
  role := .initFunction
  name := some "PyInit_a"
  code := "void PyInit_a()\x7bPyModule_Create(&m);\x7d"

def definitionWith (code : String) : Component where
  role := .moduleDefinition
  name := some "m"
  code := code

/-- A module with its method table and its init function, under any code of the module
definition. -/
def partsWith (code : String) : Extraction where
  methodTables := [listedTable]
  moduleDefinitions := [definitionWith code]
  initFunctions := [creatingInit]

theorem creatingInit_mem (code : String) :
    creatingInit ∈ (merge [partsWith code]).parts.ofRole .initFunction :=
  List.mem_singleton_self _

theorem createdModule?_creatingInit :
    createdModule? creatingInit.code = some "m" := by decide +kernel

theorem onlyNamed_definitionWith (code : String) :
    OnlyNamed (merge [partsWith code]).parts .moduleDefinition "m" (definitionWith code) := rfl

theorem onlyNamed_listedTable (code : String) :
    OnlyNamed (merge [partsWith code]).parts .methodTable "t" listedTable :=
  rfl

def zeroField : Field where
  token := .plain ['0'] (List.cons_ne_nil _ _) (List.forall_mem_singleton.mpr (by decide))

def tableField : Field where
  before := [' ']
  token := .plain ['t'] (List.cons_ne_nil _ _) (List.forall_mem_singleton.mpr (by decide))
  after := [' ']
  blank_before := List.forall_mem_singleton.mpr (by decide)
  blank_after := List.forall_mem_singleton.mpr (by decide)

def fiveFields : Initialiser :=
  { fields := [zeroField, zeroField, zeroField, zeroField, tableField] }

def sixFields : Initialiser :=
  { fields := [zeroField, zeroField, zeroField, zeroField, tableField, zeroField] }

def fiveFieldsCode : String := "PyModuleDef m=\x7b0,0,0,0, t \x7d;"

def sixFieldsCode : String := "PyModuleDef m=\x7b0,0,0,0, t ,0\x7d;"

theorem initialised_five : Initialised fiveFieldsCode fiveFields :=
  ⟨"PyModuleDef m=".toList, [';'], by decide +kernel, by decide, by decide⟩

theorem initialised_six : Initialised sixFieldsCode sixFields :=
  ⟨"PyModuleDef m=".toList, [';'], by decide +kernel, by decide, by decide⟩

/-- Of five fields the last one is the table. -/
theorem methodTable_of_initialiser_five :
    Initialised (definitionWith fiveFieldsCode).code fiveFields ∧
    fiveFields.fields[4]?.bind (·.token.name?) = some "t" ∧
    ∃ c ∈ (merge [partsWith fiveFieldsCode]).chains,
      c.initFunction = creatingInit ∧ c.moduleDefinition = some (definitionWith fiveFieldsCode) ∧
        c.methodTable = some listedTable := by
  have hfifth : fiveFields.fields[4]?.bind (·.token.name?) = some "t" := by decide +kernel
  obtain ⟨⟨c, hc, hsame⟩, hall⟩ :=
    methodTable_of_initialiser (creatingInit_mem _) createdModule?_creatingInit
    (onlyNamed_definitionWith _) initialised_five hfifth (onlyNamed_listedTable _)
  obtain ⟨hmodule, -, -, hfive⟩ := hall c hc hsame
  exact ⟨initialised_five, hfifth, c, hc, hsame, hmodule, hfive rfl rfl⟩

/-- Of six fields the fifth is not the table. -/
theorem exists_table_not_linked :
    creatingInit ∈ (merge [partsWith sixFieldsCode]).parts.ofRole .initFunction ∧
    createdModule? creatingInit.code = some "m" ∧
      OnlyNamed (merge [partsWith sixFieldsCode]).parts .moduleDefinition "m"
      (definitionWith sixFieldsCode) ∧
        Initialised (definitionWith sixFieldsCode).code sixFields ∧
          sixFields.fields[4]?.bind (·.token.name?) = some "t" ∧
            OnlyNamed (merge [partsWith sixFieldsCode]).parts .methodTable "t" listedTable ∧
              ∃ c ∈ (merge [partsWith sixFieldsCode]).chains, c.initFunction = creatingInit ∧
                c.moduleDefinition = some (definitionWith sixFieldsCode) ∧
                c.methodTable = none := by
  refine ⟨creatingInit_mem _, createdModule?_creatingInit, onlyNamed_definitionWith _,
    initialised_six, by decide +kernel, onlyNamed_listedTable _, ?_⟩
  decide +kernel

end CrossCall.Registration
