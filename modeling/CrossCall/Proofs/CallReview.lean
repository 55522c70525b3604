import CrossCall.Assistant.Review
import CrossCall.Proofs.Writing

/-! What a review of calls makes of the replies. A reply that is no JSON costs its own piece only,
and so does one that cannot be written to its file. A reply that is JSON but no object costs all
pieces, since the review asks it for a member outside of the guard around the question; so does an
object whose error cannot be printed. -/
namespace CrossCall

theorem Text.trim_trim (s : String) : Text.trim (Text.trim s) = Text.trim s := by
  have hends : ∀ cs, Text.trimEndChars cs = cs.rdropWhile Text.isBlank := fun _ => rfl
  simp only [Text.trim, String.toList_ofList, hends, Text.trimStartChars]
  congr 1
  -- Blanks at the end are taken from a list that starts with no blank, or is empty.
  have hstart : ((s.toList.dropWhile Text.isBlank).rdropWhile Text.isBlank).dropWhile Text.isBlank =
      (s.toList.dropWhile Text.isBlank).rdropWhile Text.isBlank := by
    apply List.dropWhile_eq_self_iff.mpr
    intro hpos
    rw [(List.rdropWhile_prefix Text.isBlank (l := s.toList.dropWhile Text.isBlank)).getElem hpos]
    exact List.dropWhile_get_zero_not _ _ _
  rw [hstart, List.rdropWhile_idempotent]

namespace Assistant

open Job Files

variable {d : Desk} {fs fs₁ fs₂ : Files} {dir input output content : String} {replies : List Reply}
  {kind : Desired} {k : Nat}

/-! ### What a reply says -/

/-- The value in a reply, if it can be kept and is JSON. -/
def valueIn : Option Reply → Option Json
  | some (.text w) => if w.torn then none else Json.parse? (unwrap w.text)
  | _ => none

/-- The code in an object that reports no error, if there is something in it. -/
def codeIn : Json → Option Json
  | .obj ms =>
    if ms.any (·.1 == "error") then none
    else (Json.member? "python_code" ms).filter fun v => !isVoid v
  | _ => none

/-- Why a value ends the work: it is asked for a member and has none, or it reports an error that
cannot be printed. -/
def stopIn : Json → Option Stop
  | .obj ms => ((Json.member? "error" ms).filter (·.wording.torn)).map fun _ => .unencodable
  | .arr _ | .str _ | .torn _ => some (.shape .noMembers)
  | .null | .bool _ | .int _ | .real _ => some (.shape .wrongType)

/-- What is to be recorded of a piece, given the replies to all. -/
def blockAt (replies : List Reply) (i : Nat) : Option Block :=
  ((valueIn replies[i]?).bind codeIn).map (Block.mk (i + 1))

/-- Why the reply to a piece ends the work, if it does. -/
def stopAt (replies : List Reply) (i : Nat) : Option Stop := (valueIn replies[i]?).bind stopIn

theorem valueOf_trim (s : String) :
    valueOf (Text.trim s) = (Json.parse (unwrap s)).mapError (.ofFlaw (Text.trim s)) := by
  simp only [valueOf, unwrap, Text.trim_trim]

/-! ### One question -/

/-- The files that keep the last question and its reply. -/
def traces (kind : Desired) (dir : String) : List String :=
  [kind.promptFile dir, kind.replyFile dir]

theorem promptFile_mem (kind : Desired) (dir : String) : kind.promptFile dir ∈ traces kind dir :=
  List.mem_cons_self

theorem replyFile_mem (kind : Desired) (dir : String) : kind.replyFile dir ∈ traces kind dir :=
  List.mem_cons_of_mem _ List.mem_cons_self

/-- A reply was taken, and no files but the traces were touched. -/
structure Consulted (kind : Desired) (dir : String) (d d' : Desk) : Prop where
  replies : d'.replies = d.replies.tail
  files : ChangedAt (traces kind dir) d.files d'.files

theorem Consulted.said {d' : Desk} (h : Consulted kind dir d d') (lines : List String) :
    Consulted kind dir d { d' with printed := d'.printed ++ lines } := ⟨h.replies, h.files⟩

theorem ends_ask {w : Wording} (q : Question) (hreply : d.replies.head? = some (.text w)) :
    Ends (ask q) d (.ok { w with text := Text.trim w.text })
      { d with asked := d.asked ++ [q], replies := d.replies.tail } := by
  refine (ends_get d).bind (Ends.bind rfl ?_)
  rw [hreply]
  exact ends_pure _ _

theorem ask_unanswered (q : Question) (hreply : ∀ w, d.replies.head? ≠ some (.text w)) :
    ∃ e, Ends (ask q) d (.error e)
    { d with asked := d.asked ++ [q], replies := d.replies.tail } := by
  cases hhead : d.replies.head? with
  | none =>
    refine ⟨.unanswered "no reply", (ends_get d).bind (Ends.bind rfl ?_)⟩
    rw [hhead]
    exact ends_throw _ _
  | some reply =>
    cases reply with
    | text w => exact absurd hhead (hreply w)
    | failure reason =>
      refine ⟨.unanswered reason, (ends_get d).bind (Ends.bind rfl ?_)⟩
      rw [hhead]
      exact ends_throw _ _

/-- A reply is given back if it can be kept. -/
theorem consult_text {w : Wording} (model code : String) (hroom : d.files.HasRoom (traces kind dir))
    (hreply : d.replies.head? = some (.text w)) :
    ∃ d', Ends (consult kind model dir code) d
        (if w.torn then .error .unencodable else .ok (Text.trim w.text)) d' ∧
      Consulted kind dir d d' := by
  have hprompt := ChangedAt.write (promptFile_mem kind dir) d.files (kind.prompt code)
  have hreplied := ChangedAt.write (replyFile_mem kind dir)
    (d.files.write (kind.promptFile dir) (kind.prompt code))
    (if w.torn then "" else Text.trim w.text)
  refine Ends.bind_exists (ends_ask _ hreply) ?_
  refine Ends.bind_exists (ends_store (by exact hroom) (promptFile_mem kind dir) _) ?_
  have hkept := ends_storeWording
    (d := { d with
      asked := d.asked ++ [{ model := model, system := some kind.role, prompt := kind.prompt code }]
      replies := d.replies.tail
      files := d.files.write (kind.promptFile dir) (kind.prompt code) })
    (hroom.changed hprompt) (replyFile_mem kind dir) { w with text := Text.trim w.text }
  dsimp only at hkept
  cases htorn : w.torn with
  | true =>
    rw [htorn] at hkept hreplied
    exact ⟨_, hkept.bind_stop, rfl, hprompt.trans hreplied⟩
  | false =>
    rw [htorn] at hkept hreplied
    refine Ends.bind_exists hkept (Ends.bind_exists (ends_say _ _) ?_)
    exact Ends.bind_exists (ends_say _ _) ⟨_, ends_pure _ _, rfl, hprompt.trans hreplied⟩

theorem consult_unanswered (model dir code : String)
    (hreply : ∀ w, d.replies.head? ≠ some (.text w)) :
    ∃ e d', Ends (consult kind model dir code) d (.error e) d' ∧ Consulted kind dir d d' := by
  obtain ⟨e, he⟩ := ask_unanswered _ hreply
  exact ⟨e, _, he.bind_stop, rfl, .refl _ _⟩

theorem ends_faultAnswer (fault : ReplyFault) (d : Desk) :
    ∃ lines, Ends (faultAnswer fault) d (.ok (.obj [("error", .str fault.note)]))
      { d with printed := d.printed ++ lines } := by
  cases fault with
  | failed reason => exact ⟨_, rfl⟩
  | notJson text => exact ⟨_, rfl⟩

/-- What stopped a question stands in for the answer. -/
theorem answer_stopped {e : Stop} {model code : String} {d' : Desk}
    (h : Ends (consult kind model dir code) d (.error e) d') (hd' : Consulted kind dir d d') :
    ∃ note d', Ends (answer kind model dir code) d (.ok (.obj [("error", .str note)])) d' ∧
      Consulted kind dir d d' := by
  obtain ⟨lines, hlines⟩ := ends_faultAnswer (.failed e.message) d'
  exact ⟨_, _, h.attempt.bind hlines, hd'.said lines⟩

/-- An answer is the value in the reply, or an object that reports an error. -/
theorem ends_answer (model code : String) (hroom : d.files.HasRoom (traces kind dir)) :
    ∃ note d', Ends (answer kind model dir code) d
        (.ok ((valueIn d.replies.head?).getD (.obj [("error", .str note)]))) d' ∧
      Consulted kind dir d d' := by
  by_cases htext : ∃ w, d.replies.head? = some (.text w)
  · obtain ⟨w, hw⟩ := htext
    obtain ⟨d', hends, hd'⟩ := consult_text model code hroom hw
    cases htorn : w.torn with
    | true =>
      rw [htorn, if_pos rfl] at hends
      simpa [hw, valueIn, htorn] using answer_stopped hends hd'
    | false =>
      rw [htorn, if_neg Bool.false_ne_true] at hends
      have hvalue : valueIn d.replies.head? = (Json.parse (unwrap w.text)).toOption := by
        simp [hw, valueIn, htorn, Json.parse?]
      rw [hvalue]
      cases hparse : Json.parse (unwrap w.text) with
      | error flaw =>
        have hfault : valueOf (Text.trim w.text) = .error (.ofFlaw (Text.trim w.text) flaw) := by
          rw [valueOf_trim, hparse]
          rfl
        obtain ⟨lines, hlines⟩ := ends_faultAnswer (.ofFlaw (Text.trim w.text) flaw) d'
        refine ⟨(ReplyFault.ofFlaw (Text.trim w.text) flaw).note, _, hends.attempt.bind ?_,
          hd'.said lines⟩
        simp only [hfault]
        exact hlines
      | ok v =>
        have hok : valueOf (Text.trim w.text) = .ok v := by
          rw [valueOf_trim, hparse]
          rfl
        refine ⟨"", d', hends.attempt.bind ?_, hd'⟩
        simp only [hok]
        exact ends_pure v d'
  · obtain ⟨e, d', hends, hd'⟩ := consult_unanswered model dir code (not_exists.mp htext)
    have hvalue : valueIn d.replies.head? = none := by
      unfold valueIn
      split
      · rename_i w hw
        exact absurd ⟨w, hw⟩ htext
      · rfl
    rw [hvalue]
    exact answer_stopped hends hd'

/-! ### The code in an answer -/

theorem any_eq_isSome_member? (name : String) (ms : List (String × Json)) :
    ms.any (·.1 == name) = (Json.member? name ms).isSome := by
  induction ms with
  | nil => rfl
  | cons m rest ih =>
    rw [List.any_cons, ih, Json.member?]
    by_cases hm : m.1 = name <;> simp [hm]

/-- The code of an object, or an empty text. -/
def codeOf (ms : List (String × Json)) : Json := (Json.member? "python_code" ms).getD (.str "")

theorem findingIn_object (ms : List (String × Json)) :
    findingIn (.obj ms) = .ok ((Json.member? "error" ms).elim
      (if isVoid (codeOf ms) then .nothing else .code (codeOf ms)) .problem) := by
  simp only [findingIn, names, optional, any_eq_isSome_member?]
  cases Json.member? "error" ms <;> rfl

theorem filter_isVoid (found : Option Json) : (found.filter fun v => !isVoid v) =
    if isVoid (found.getD (.str "")) then none else some (found.getD (.str "")) := by
  cases found with
  | none => rfl
  | some v => cases hvoid : isVoid v <;> simp [Option.filter, hvoid]

theorem codeIn_object {ms : List (String × Json)} (herror : Json.member? "error" ms = none) :
    codeIn (.obj ms) = if isVoid (codeOf ms) then none else some (codeOf ms) := by
  simp only [codeIn, any_eq_isSome_member?, herror, Option.isSome_none, Bool.false_eq_true,
    if_false]
  exact filter_isVoid _

/-- An object ends the work only with an error that cannot be printed. -/
theorem ends_blockIn_object (n : Nat) (ms : List (String × Json)) (d : Desk) :
    ∃ lines, Ends (blockIn n (.obj ms)) d
      ((stopIn (.obj ms)).elim (.ok ((codeIn (.obj ms)).map (Block.mk n))) .error)
      { d with printed := d.printed ++ lines } := by
  have hfinding := ends_orStop .shape (findingIn (.obj ms)) d
  rw [findingIn_object] at hfinding
  unfold blockIn
  rw [findingIn_object]
  cases herror : Json.member? "error" ms with
  | some note =>
    rw [herror] at hfinding
    cases htorn : note.wording.torn with
    | true =>
      have hstop : stopIn (.obj ms) = some .unencodable := by simp [stopIn, herror, htorn]
      refine ⟨[], ?_⟩
      rw [hstop, List.append_nil]
      exact hfinding.bind (sayWith_torn _ htorn d).bind_stop
    | false =>
      have hstop : stopIn (.obj ms) = none := by simp [stopIn, herror, htorn]
      have hcode : codeIn (.obj ms) = none := by simp [codeIn, any_eq_isSome_member?, herror]
      refine ⟨["  Error parsing call block #" ++ toString n ++ ": " ++ note.wording.text], ?_⟩
      rw [hstop, hcode]
      exact hfinding.bind ((ends_sayWith _ htorn d).bind (ends_pure _ _))
  | none =>
    rw [herror] at hfinding
    have hstop : stopIn (.obj ms) = none := by simp [stopIn, herror]
    refine ⟨[], ?_⟩
    rw [hstop, codeIn_object herror, List.append_nil]
    refine hfinding.bind ?_
    cases isVoid (codeOf ms) <;> exact ends_pure _ _

/-- Whether or not a value names an error, a member is asked of it. -/
theorem ends_blockIn (n : Nat) (j : Json) (d : Desk) :
    ∃ lines, Ends (blockIn n j) d ((stopIn j).elim (.ok ((codeIn j).map (Block.mk n))) .error)
      { d with printed := d.printed ++ lines } := by
  have hstopped : ∀ fault, findingIn j = .error fault →
      Ends (blockIn n j) d (.error (.shape fault)) { d with printed := d.printed ++ [] } := by
    intro fault hfault
    rw [List.append_nil]
    refine Ends.bind_stop ?_
    rw [hfault]
    exact ends_orStop _ _ d
  have hnamed : ∀ named : Bool, names "error" j = .ok named → (∀ ms, j ≠ .obj ms) →
      findingIn j = .error .noMembers := by
    intro named hnamed hobj
    have hmembers : ∀ name default, optional j name default = .error .noMembers := by
      intro name default
      unfold optional
      split
      · exact absurd rfl (hobj _)
      · rfl
    simp only [findingIn, hnamed, hmembers]
    cases named <;> rfl
  cases j with
  | obj ms => exact ends_blockIn_object n ms d
  | arr _ | str _ | torn _ => exact ⟨[], hstopped _ (hnamed _ rfl (by simp))⟩
  | null | bool _ | int _ | real _ => exact ⟨[], hstopped _ rfl⟩

/-! ### One piece -/

/-- Asks about the piece of a number. -/
def reviewPiece (model dir : String) (k : Nat) (code : String) : Job (Option Block) := do
  sayAll (heading "call block" k)
  findBlock model dir (k + 1) code

/-- What the reply to a piece comes to: the end of the work, or what is to be recorded. -/
def outcomeAt (replies : List Reply) (i : Nat) : Except Stop (Option Block) :=
  (stopAt replies i).elim (.ok (blockAt replies i)) .error

theorem ends_reviewPiece (model code : String) (hroom : d.files.HasRoom (traces codeDesired dir))
    (hreplies : d.replies = replies.drop k) :
    ∃ d', Ends (reviewPiece model dir k code) d (outcomeAt replies k) d' ∧
      ChangedAt (traces codeDesired dir) d.files d'.files ∧ d'.replies = replies.drop (k + 1) := by
  let said : Desk := { d with printed := d.printed ++ heading "call block" k }
  have hhead : said.replies.head? = replies[k]? := by rw [← List.head?_drop, ← hreplies]
  obtain ⟨note, d₁, hanswer, hd₁⟩ := ends_answer (d := said) model code hroom
  rw [hhead] at hanswer
  obtain ⟨lines, hblock⟩ :=
    ends_blockIn (k + 1) ((valueIn replies[k]?).getD (.obj [("error", .str note)])) d₁
  -- What stands in for a missing answer can be printed, and has no code.
  have houtcome : ∀ j, j = (valueIn replies[k]?).getD (.obj [("error", .str note)]) →
      (stopIn j).elim (.ok ((codeIn j).map (Block.mk (k + 1)))) .error = outcomeAt replies k := by
    rintro j rfl
    unfold outcomeAt stopAt blockAt
    cases valueIn replies[k]? <;> rfl
  rw [houtcome _ rfl] at hblock
  refine ⟨_, (ends_sayAll _ _).bind (hanswer.bind hblock), hd₁.files, ?_⟩
  change d₁.replies = _
  rw [hd₁.replies, ← List.tail_drop, ← hreplies]

/-! ### All pieces -/

/-- Asks about pieces that are numbered from `k` on. -/
def reviewFrom (model dir : String) (k : Nat) (codes : List String) : Job (List (Option Block)) :=
  (codes.zipIdx k).mapM fun (code, i) => reviewPiece model dir i code

theorem eachSection_eq (model dir : String) (codes : List String) :
    eachSection "call block" codes (findBlock model dir) = reviewFrom model dir 0 codes := rfl

theorem reviewFrom_cons (model dir : String) (k : Nat) (code : String) (codes : List String) :
    reviewFrom model dir k (code :: codes) = (do
      let block ← reviewPiece model dir k code
      let blocks ← reviewFrom model dir (k + 1) codes
      pure (block :: blocks)) := by
  simp [reviewFrom, List.zipIdx_cons]

/-- The pieces come to what their own replies say, up to the first reply that ends the work. -/
theorem ends_reviewFrom (model : String) (codes : List String)
    (hroom : d.files.HasRoom (traces codeDesired dir)) (hreplies : d.replies = replies.drop k) :
    ∃ d', Ends (reviewFrom model dir k codes) d
        ((List.range' k codes.length).mapM (outcomeAt replies)) d' ∧
      ChangedAt (traces codeDesired dir) d.files d'.files := by
  induction codes generalizing k d with
  | nil => exact ⟨d, ends_pure _ _, .refl _ _⟩
  | cons code codes ih =>
    obtain ⟨d₁, hpiece, hd₁, hrest⟩ := ends_reviewPiece model code hroom hreplies
    obtain ⟨d₂, hpieces, hd₂⟩ := ih (hroom.changed hd₁) hrest
    rw [reviewFrom_cons, List.length_cons, List.range'_succ, List.mapM_cons]
    cases houtcome : outcomeAt replies k with
    | error stop =>
      rw [houtcome] at hpiece
      exact ⟨d₁, hpiece.bind_stop, hd₁⟩
    | ok block =>
      rw [houtcome] at hpiece
      refine ⟨d₂, hpiece.bind ?_, hd₁.trans hd₂⟩
      cases hlater : (List.range' (k + 1) codes.length).mapM (outcomeAt replies) with
      | error stop =>
        rw [hlater] at hpieces
        exact hpieces.bind_stop
      | ok blocks =>
        rw [hlater] at hpieces
        exact hpieces.bind (ends_pure _ _)

theorem outcomeAt_of_go (h : stopAt replies k = none) :
    outcomeAt replies k = .ok (blockAt replies k) := by
  rw [outcomeAt, h]
  rfl

theorem mapM_outcomeAt (n : Nat) (hgo : ∀ i, k ≤ i → i < k + n → stopAt replies i = none) :
    (List.range' k n).mapM (outcomeAt replies) = .ok ((List.range' k n).map (blockAt replies)) := by
  induction n generalizing k with
  | zero => rfl
  | succ n ih =>
    have hfirst := outcomeAt_of_go (hgo k (Nat.le_refl k) (by omega))
    rw [List.range'_succ, List.mapM_cons, hfirst, ih fun i hi hlt => hgo i (by omega) (by omega)]
    rfl

theorem mapM_outcomeAt_stop {i : Nat} {stop : Stop} (n : Nat)
    (hgo : ∀ j, k ≤ j → j < i → stopAt replies j = none) (hi : k ≤ i) (hlt : i < k + n)
    (hstop : stopAt replies i = some stop) :
    (List.range' k n).mapM (outcomeAt replies) = .error stop := by
  induction n generalizing k with
  | zero => omega
  | succ n ih =>
    rw [List.range'_succ, List.mapM_cons]
    by_cases heq : i = k
    · subst heq
      rw [outcomeAt, hstop]
      rfl
    · have hfirst := outcomeAt_of_go (hgo k (Nat.le_refl k) (by omega))
      rw [hfirst, ih (fun j hj hji => hgo j (by omega) hji) (by omega) (by omega)]
      rfl

/-! ### The record -/

theorem isTornItems_toJson (blocks : List Block) :
    Json.isTornItems (blocks.map Block.toJson) = blocks.any fun b => b.code.isTorn := by
  induction blocks with
  | nil => rfl
  | cons b rest ih =>
    rw [List.map_cons, Json.isTornItems, ih, List.any_cons]
    simp [Block.toJson, Json.isTorn, Json.isTornMembers]

theorem isTorn_blocksJson (blocks : List Block) :
    (blocksJson blocks).isTorn = blocks.any fun b => b.code.isTorn := by
  simp [blocksJson, Json.isTorn, Json.isTornMembers, isTornItems_toJson]

/-- What is to be recorded of a report with a number of pieces. -/
def blocksOf (replies : List Reply) (n : Nat) : List Block :=
  (List.range n).filterMap (blockAt replies)

/-! ### The whole review -/

/-- The files that are written before the code. -/
def recordFiles (output : String) : List String := output :: traces codeDesired (Path.parent output)

/-- There is room for all that a review writes: in the folder of its record, and in the folder for
code below. -/
structure Room (fs fs₁ fs₂ : Files) (output : String) : Prop where
  folder : fs.makeDirectories (Path.parent output) = .ok fs₁
  housed : ∀ p ∈ recordFiles output, fs₁.isDirectory (Path.dirName (fs₁.resolve p)) = true
  below : fs₁.makeDirectories (codeFolder (Path.parent output)) = .ok fs₂
  aside : ∀ p ∈ recordFiles output,
    Apart (fs.resolve p) (fs.resolve (codeFolder (Path.parent output)))
  code : fs₂.HasRoom (codeFile (Path.parent output) :: recordFiles output)
  other : fs.resolve output ≠ fs.resolve (codeFile (Path.parent output))

theorem Room.files (h : Room fs fs₁ fs₂ output) : fs₁.HasRoom (recordFiles output) :=
  (h.code.mono (List.subset_cons_self _ _)).before h.below h.housed

theorem traces_subset (output : String) :
    traces codeDesired (Path.parent output) ⊆ recordFiles output :=
  List.subset_cons_self _ _

theorem bytes_of_get? {p : String} {bytes : ByteArray}
    (h : fs.contents.get? (fs.resolve p) = some bytes) :
    fs.bytes p = .ok bytes := by
  simp only [Files.bytes, h]

/-- The code goes into a file of its own, so the record stays as it is. -/
theorem ends_writeCode (blocks : List Block) (hroom : Room fs fs₁ fs₂ output)
    (hfiles : ChangedAt (recordFiles output) fs₁ d.files) :
    ∃ d', Ends (writeCode blocks (Path.parent output)) d (.ok ()) d' ∧
      d'.files.contents.get? (d'.files.resolve output) =
      d.files.contents.get? (d.files.resolve output) := by
  cases hempty : blocks.isEmpty with
  | true =>
    simp only [writeCode, hempty]
    exact ⟨d, ends_pure _ _, rfl⟩
  | false =>
    have hresolve : ∀ p, d.files.resolve p = fs.resolve p := by
      intro p
      rw [hfiles.resolve_eq, resolve_made hroom.folder]
    obtain ⟨made, hmade, hchanged⟩ := hfiles.makeDirectories hroom.below (by
      intro p hp
      rw [resolve_made hroom.folder, resolve_made hroom.folder]
      exact hroom.aside p hp)
    have hhouse := hroom.code.changed (hchanged.mono (List.subset_cons_self _ _))
    simp only [writeCode, hempty]
    refine Ends.bind_exists (ends_makeDirectories hmade) ?_
    refine Ends.bind_exists (ends_store (by exact hhouse) List.mem_cons_self _) ?_
    refine Ends.bind_exists (ends_say _ _) ⟨_, ends_pure _ _, ?_⟩
    have hother : made.resolve output ≠ made.resolve (codeFile (Path.parent output)) := by
      rw [resolve_made hmade, resolve_made hmade, hresolve, hresolve]
      exact hroom.other
    change (made.write _ _).contents.get? (made.resolve output) = _
    rw [Files.write, Table.get?_insert, if_neg hother, contents_made hmade, resolve_made hmade]

/-- What the pieces of a report come to. -/
theorem ends_sections (model : String) (codes : List String) (hroom : Room fs fs₁ fs₂ output)
    (hfiles : d.files = fs₁) :
    ∃ d', Ends (eachSection "call block" codes (findBlock model (Path.parent output))) d
        ((List.range codes.length).mapM (outcomeAt d.replies)) d' ∧
      ChangedAt (traces codeDesired (Path.parent output)) fs₁ d'.files := by
  have htraces : d.files.HasRoom (traces codeDesired (Path.parent output)) := by
    rw [hfiles]
    exact hroom.files.mono (traces_subset output)
  obtain ⟨d', hends, hd'⟩ := ends_reviewFrom (k := 0) model codes htraces rfl
  rw [← eachSection_eq, ← List.range_eq_range'] at hends
  exact ⟨d', hends, hfiles ▸ hd'⟩

/-- What the pieces give, when no reply ends the work. -/
theorem sections_of_go (model : String) (codes : List String) (hroom : Room fs fs₁ fs₂ output)
    (hfiles : d.files = fs₁) (hgo : ∀ i < codes.length, stopAt d.replies i = none) :
    ∃ d' found,
      Ends (eachSection "call block" codes (findBlock model (Path.parent output))) d
      (.ok found) d' ∧ found.filterMap id = blocksOf d.replies codes.length ∧
      ChangedAt (recordFiles output) fs₁ d'.files := by
  obtain ⟨d', hends, hd'⟩ := ends_sections model codes hroom hfiles
  rw [List.range_eq_range', mapM_outcomeAt _ fun i _ hlt => hgo i (by omega)] at hends
  refine ⟨d', _, hends, ?_, hd'.mono (traces_subset output)⟩
  rw [List.filterMap_map, ← List.range_eq_range']
  rfl

theorem reviewCallSections_of_go (model : String) (codes : List String)
    (hroom : Room fs fs₁ fs₂ output) (hfiles : d.files = fs₁)
    (hgo : ∀ i < codes.length, stopAt d.replies i = none)
    (hwhole : ∀ b ∈ blocksOf d.replies codes.length, b.code.isTorn = false) :
    ∃ d', Ends (reviewCallSections model output codes) d (.ok ()) d' ∧
      d'.files.bytes output = .ok (blocksJson (blocksOf d.replies codes.length)).render.toUTF8 := by
  obtain ⟨d₁, found, hfound, hblocks, hd₁⟩ := sections_of_go model codes hroom hfiles hgo
  have hjson : (blocksJson (found.filterMap id)).isTorn = false := by
    rw [isTorn_blocksJson, hblocks]
    simpa using hwhole
  let stored : Desk := {
    d₁ with
    files := d₁.files.write output (blocksJson (found.filterMap id)).render
    printed := d₁.printed ++ ["✓ JSON result saved to: " ++ output] }
  have hstored : ChangedAt (recordFiles output) fs₁ stored.files :=
    hd₁.trans (.write List.mem_cons_self _ _)
  obtain ⟨d₂, hcode, hkept⟩ := ends_writeCode (found.filterMap id) hroom hstored
  refine Ends.bind_exists hfound ?_
  refine Ends.bind_exists (ends_storeJson hjson (hroom.files.changed hd₁) List.mem_cons_self) ?_
  refine Ends.bind_exists (ends_say _ _) ?_
  refine Ends.bind_exists hcode ⟨_, ends_sayAll _ _, bytes_of_get? ?_⟩
  rw [← hblocks]
  refine hkept.trans ?_
  change (d₁.files.contents.insert _ _).get? (d₁.files.resolve output) = _
  rw [Table.get?_insert, if_pos rfl]

theorem reviewCallSections_torn (model : String) (codes : List String)
    (hroom : Room fs fs₁ fs₂ output) (hfiles : d.files = fs₁)
    (hgo : ∀ i < codes.length, stopAt d.replies i = none)
    (htorn : ∃ b ∈ blocksOf d.replies codes.length, b.code.isTorn = true) :
    ∃ d', Ends (reviewCallSections model output codes) d (.error .unencodable) d' := by
  obtain ⟨d₁, found, hfound, hblocks, hd₁⟩ := sections_of_go model codes hroom hfiles hgo
  have hjson : (blocksJson (found.filterMap id)).isTorn = true := by
    rw [isTorn_blocksJson, hblocks]
    simpa using htorn
  obtain ⟨d₂, hstop⟩ := storeJson_torn hjson (hroom.files.changed hd₁) List.mem_cons_self
  exact ⟨d₂, hfound.bind hstop.bind_stop⟩

theorem reviewCallSections_stop {i : Nat} {stop : Stop} (model : String) (codes : List String)
    (hroom : Room fs fs₁ fs₂ output) (hfiles : d.files = fs₁) (hlt : i < codes.length)
    (hgo : ∀ j < i, stopAt d.replies j = none) (hstop : stopAt d.replies i = some stop) :
    ∃ d', Ends (reviewCallSections model output codes) d (.error stop) d' ∧
      ChangedAt (traces codeDesired (Path.parent output)) fs₁ d'.files := by
  obtain ⟨d', hends, hd'⟩ := ends_sections model codes hroom hfiles
  rw [List.range_eq_range', mapM_outcomeAt_stop _ (fun j _ hji => hgo j hji) (Nat.zero_le i)
    (by omega) hstop] at hends
  exact ⟨d', hends.bind_stop, hd'⟩

theorem ends_connect (model : String) (hkey : d.hasKey = true) :
    Ends (connect model) d (.ok model) d := by
  refine (ends_get d).bind ?_
  rw [if_pos hkey]
  exact ends_pure _ _

/-- A review goes to work on the pieces of its report, with the folder of its record at hand and all
replies to come. -/
theorem reviewCalls_start (model : String) (hread : d.files.bytes input = .ok content.toUTF8)
    (hkey : d.hasKey = true) (hroom : Room d.files fs₁ fs₂ output) :
    let codes := callSections (String.ofList (Text.unifyNewlines content.toList))
    ∃ d₀ : Desk, d₀.files = fs₁ ∧ d₀.replies = d.replies ∧ ∀ r d',
      Ends (reviewCallSections model output codes) d₀ r d' →
        Ends (reviewCalls input output model) d r d' := by
  refine ⟨{ d with files := fs₁, printed := d.printed ++ ["Reading file: " ++ input] }, rfl,
    rfl, ?_⟩
  intro r d' hends
  refine Ends.bind (ends_say _ _) ?_
  refine Ends.bind (ends_readText hread) ?_
  refine Ends.bind (ends_connect model (by exact hkey)) ?_
  exact Ends.bind (ends_makeDirectories hroom.folder) hends

/-- Of the files, only the traces of the last question tell of a review that a reply has ended. -/
theorem reviewCalls_stop {i : Nat} {stop : Stop} (model : String)
    (hread : d.files.bytes input = .ok content.toUTF8) (hkey : d.hasKey = true)
    (hroom : Room d.files fs₁ fs₂ output)
    (hi : i < (callSections (String.ofList (Text.unifyNewlines content.toList))).length)
    (hgo : ∀ j < i, stopAt d.replies j = none) (hstop : stopAt d.replies i = some stop) :
    ∃ d', Ends (reviewCalls input output model) d (.error stop) d' ∧
      ∀ path, (∀ p ∈ traces codeDesired (Path.parent output), d.files.resolve p ≠ path) →
        d'.files.contents.get? path = d.files.contents.get? path := by
  obtain ⟨d₀, hfiles, hreplies, hstart⟩ := reviewCalls_start model hread hkey hroom
  rw [← hreplies] at hgo hstop
  obtain ⟨d', hends, hd'⟩ := reviewCallSections_stop model _ hroom hfiles hi hgo hstop
  refine ⟨d', hstart _ _ hends, ?_⟩
  intro path hpath
  rw [← contents_made hroom.folder]
  apply hd'.same
  intro p hp
  rw [resolve_made hroom.folder]
  exact hpath p hp

/-- A report on two calls. -/
def twoCalls : String := "C中的Python API调用 #1\na()\nC中的Python API调用 #2\nb()\n"

def twoCallsFiles : Files where
  contents := .ofList [("/calls.txt", twoCalls.toUTF8)]

def twoCallsDesk (first second : String) : Desk where
  files := twoCallsFiles
  replies := [.text first, .text second]

theorem twoCalls_read : twoCallsFiles.bytes "calls.txt" = .ok twoCalls.toUTF8 := by
  have hpath : twoCallsFiles.resolve "calls.txt" = "/calls.txt" := by decide +kernel
  apply bytes_of_get?
  rw [hpath]
  rfl

theorem twoCalls_sections :
    (callSections (String.ofList (Text.unifyNewlines twoCalls.toList))).length = 2 := by
  decide +kernel

theorem twoCalls_room : Room twoCallsFiles { twoCallsFiles with extraDirectories := ["/out"] }
    { twoCallsFiles with extraDirectories := ["/out", "/out/py"] } "out/calls.json" where
  folder := by rfl
  housed := by decide +kernel
  below := by rfl
  aside := by
    unfold Apart
    decide +kernel
  code := ⟨by decide +kernel, by decide +kernel, by decide +kernel, by decide +kernel⟩
  other := by decide +kernel

def codeReply : String := "\x7b\"python_code\": \"b()\"\x7d"

end Assistant

end CrossCall
