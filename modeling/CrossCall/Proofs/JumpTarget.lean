import CrossCall.Proofs.JumpFlow

/-! What a break and a continue lead to, exactly, and when that is the one place it should be. A
break should lead to where the innermost loop or switch around it is left, a continue to the head of
the innermost loop. Both do if no other construct takes the jump as well. -/
namespace CrossCall.Flow

variable {src : Source} {f b c S : Locus} {y : Int} {rs : List Record} {path : List Nat} {g : Graph}

/-! ### Evaluation -/

/-- Records that are computed make a function legible. -/
theorem exists_legible {α : Type} {k : List Record → α} {r : α}
    (hk : f.kind = "function_definition") (ho : orderlyInside f.node = true)
    (hd : (numbers src f.node).Nodup)
    (h : (functionRecords src f).toOption.map
      (fun rs => ((rs.map (·.vertex)).all isVisible, k rs)) = some (true, r)) :
    ∃ rs, Legible src f rs ∧ controlFlow src f = .ok (graphOf rs) ∧ k rs = r := by
  cases hr : functionRecords src f with
  | error e =>
    rw [hr] at h
    cases h
  | ok rs =>
    rw [hr] at h
    obtain ⟨hvisible, hval⟩ := Prod.mk.inj (Option.some.inj h)
    exact ⟨rs, ⟨hk, ho, hd, hr, List.all_eq_true.mp hvisible⟩, by rw [controlFlow, hr]; rfl, hval⟩

/-- What is computed of the statement at a path and the innermost one around it of the kinds asked
for. -/
theorem exists_owner {α : Type} {k : Locus → Locus → α} {r : α} {stops : String → Bool}
    (h : ((f.descend? path).bind fun b => (enclosing? stops b.above).map (k b)) = some r) :
    ∃ b S, f.descend? path = some b ∧ enclosing? stops b.above = some S ∧ k b S = r := by
  obtain ⟨b, hb, h⟩ := Option.bind_eq_some_iff.mp h
  obtain ⟨S, hS, h⟩ := Option.map_eq_some_iff.mp h
  exact ⟨b, S, hb, hS, h⟩

/-! ### Breaks -/

/-- All that takes a break of this statement takes it to where the statement is left. A while or for
loop leaves its breaks to the block that it stands in, where they wait; a do loop or a switch must
not have another around it. -/
def Undisputed (src : Source) (b S : Locus) : Prop :=
  if isCountedLoop S.kind then
    parentIs S "do_statement" = false ∧ waiting? src S = onward src true S.above
  else enclosing? isBreakable S.above = none ∧ (S.kind = "do_statement" →
    waiting? src S = none ∧ parentIs b "do_statement" = false ∨
    waiting? src S = onward src true S.above)

theorem mem_targets_loop (hloop : isCountedLoop S.kind = true)
    (hS : enclosing? isBreakable b.above = some S) (hu : Undisputed src b S) :
    y ∈ targets src "break_statement" b.above ↔ onward src true S.above = some y := by
  rw [Undisputed, if_pos hloop] at hu
  have hk : S.kind = "while_statement" ∨ S.kind = "for_statement" := by
    simpa [isCountedLoop] using hloop
  have htakes : takes src "break_statement" S = [] := by rcases hk with hk | hk <;> simp [takes, hk]
  have hdo : doTakes src "break_statement" S = [] := by
    rcases hk with hk | hk <;> simp [doTakes, hk]
  have houtlets : outlets src "break_statement" S = (waiting? src S).toList := by
    rw [outlets_of_parent hu.1]
    simp [isLoop_of_counted hloop]
  rw [mem_targets catches_break hS, htakes, hdo, houtlets, hu.2, hloop]
  simp

theorem mem_targets_other (hloop : isCountedLoop S.kind = false) (hstop : isBreakable S.kind = true)
    (hS : enclosing? isBreakable b.above = some S) (hu : Undisputed src b S) :
    y ∈ targets src "break_statement" b.above ↔ onward src true S.above = some y := by
  rw [Undisputed, if_neg (by simp [hloop])] at hu
  obtain ⟨hfree, hdo⟩ := hu
  have honward : onward src false S.above = _ := onward_of_free catches_break hfree
  have hk : S.kind = "do_statement" ∨ S.kind = "switch_statement" := by
    simpa [isBreakable, isLoop, hloop] using hstop
  rw [mem_targets catches_break hS, targets_of_free catches_break hfree,
    outlets_of_parent (parentIs_of_free catches_break hfree)]
  rcases hk with hk | hk
  · have hisLoop : isLoop "do_statement" = true := rfl
    -- The do loop takes the break unless it is the body itself, and the block around takes it if
    -- something follows.
    rcases hdo hk with ⟨hw, hp⟩ | hw
    · simp [takes, doTakes, hk, hw, hp, honward]
    · rw [hw]
      simp only [takes, doTakes, hk, hisLoop, honward, if_true, Option.mem_toList, List.not_mem_nil,
        and_false, or_false]
      simp
  · simp [takes, doTakes, hk, isLoop, isCountedLoop, honward]

/-- A break leads to its targets and the statement around it is left for what comes next. Where
nobody else takes the break, these are the same. -/
theorem successors_break (h : Legible src f rs) (hg : controlFlow src f = .ok g)
    (hb : f.descend? path = some b) (hkind : b.kind = "break_statement")
    (hmem : spanId src b.node ∈ g.ids) (hS : enclosing? isBreakable b.above = some S) :
    (∀ y, y ∈ g.successors (spanId src b.node) ↔ y ∈ targets src "break_statement" b.above) ∧
      (∀ y, Exits src g S y ↔ onward src true S.above = some y) ∧
        (Undisputed src b S → ∀ y, y ∈ g.successors (spanId src b.node) ↔ Exits src g S y) := by
  obtain rfl := h.graph hg
  have hj : isJump b.kind = true := by rw [hkind]; rfl
  have hin := h.inside hb hj
  have hrec : spanId src b.node ∈ recordedIds rs := mem_ids_graphOf.mp hmem
  obtain ⟨hSin, hstop, -, hsub⟩ := hin.enclosing h.function h.orderly hS
  have hsucc : ∀ y, y ∈ (graphOf rs).successors (spanId src b.node) ↔
      y ∈ targets src "break_statement" b.above := by
    intro y
    rw [h.successors hin hj hrec, hkind]
  have hexits : ∀ y, Exits src (graphOf rs) S y ↔ onward src true S.above = some y :=
    fun y => h.exits hSin (hsub src _ (mem_numbers.mpr (.inl (spanId_mem_own hj)))) hrec
  refine ⟨hsucc, hexits, fun hu y => ?_⟩
  rw [hsucc, hexits]
  cases hloop : isCountedLoop S.kind with
  | true => exact mem_targets_loop hloop hS hu
  | false => exact mem_targets_other hloop hstop hS hu

/-- A switch in a loop, each with a break. -/
def switchInLoop : Source :=
  ⟨"void f()\x7bwhile(a)\x7bswitch(b)\x7bcase 1:break;\x7dbreak;\x7dc;\x7d"⟩

def switchInLoopFunction : Locus :=
  ⟨.bareFunction 0 4 (.node "compound_statement" 8 52 (some "body") [
    .node "\x7b" 8 9 none [],
    .node "while_statement" 9 49 none [
      .node "while" 9 14 none [],
      .node "parenthesized_expression" 14 17 (some "condition") [
        .node "(" 14 15 none [],
        .node "identifier" 15 16 none [],
        .node ")" 16 17 none []],
      .node "compound_statement" 17 49 (some "body") [
        .node "\x7b" 17 18 none [],
        .node "switch_statement" 18 42 none [
          .node "switch" 18 24 none [],
          .node "parenthesized_expression" 24 27 (some "condition") [
            .node "(" 24 25 none [],
            .node "identifier" 25 26 none [],
            .node ")" 26 27 none []],
          .node "compound_statement" 27 42 (some "body") [
            .node "\x7b" 27 28 none [],
            .node "case_statement" 28 41 none [
              .node "case" 28 32 none [],
              .node "number_literal" 33 34 (some "value") [],
              .node ":" 34 35 none [],
              .node "break_statement" 35 41 none [.node "break" 35 40 none [],
                .node ";" 40 41 none []]],
            .node "\x7d" 41 42 none []]],
        .node "break_statement" 42 48 none [.node "break" 42 47 none [], .node ";" 47 48 none []],
        .node "\x7d" 48 49 none []]],
    .node "expression_statement" 49 51 none [.node "identifier" 49 50 none [],
      .node ";" 50 51 none []],
    .node "\x7d" 51 52 none []]), []⟩

theorem switchInLoop_legible : ∃ rs, Legible switchInLoop switchInLoopFunction rs ∧
    controlFlow switchInLoop switchInLoopFunction = .ok (graphOf rs) ∧
      (graphOf rs).ids = [107407, 573833, 414351, 807697, 658521, 629985, 618063] ∧
        (graphOf rs).successors 807697 = [629985, 658521] ∧
    ((switchInLoopFunction.descend? [2, 1, 2, 2]).bind fun b =>
      (enclosing? isBreakable b.above).map fun S =>
        (b.kind, spanId switchInLoop b.node, S.kind, parentIs S "do_statement",
          decide (waiting? switchInLoop S = onward switchInLoop true S.above))) =
      some ("break_statement", 658521, "while_statement", false, true) ∧
    ((switchInLoopFunction.descend? [2, 1, 2, 1, 2, 1, 3]).bind fun b =>
      (enclosing? isBreakable b.above).map fun S =>
        (b.kind, spanId switchInLoop b.node, S.kind, onward switchInLoop true S.above)) =
      some ("break_statement", 807697, "switch_statement", some 658521) := by
  have hbuilt : (functionRecords switchInLoop switchInLoopFunction).toOption.map (fun rs =>
      ((rs.map (·.vertex)).all isVisible, (graphOf rs).ids, (graphOf rs).successors 807697)) =
      some (true, [107407, 573833, 414351, 807697, 658521, 629985, 618063], [629985, 658521]) := by
    decide +kernel
  obtain ⟨rs, hlegible, hg, heq⟩ :=
    exists_legible rfl (by decide +kernel) (by decide +kernel) hbuilt
  obtain ⟨hids, hsucc⟩ := Prod.mk.inj heq
  exact ⟨rs, hlegible, hg, hids, hsucc, by decide +kernel, by decide +kernel⟩

theorem successors_break_loop :
    ∃ rs g b S, Legible switchInLoop switchInLoopFunction rs ∧
      controlFlow switchInLoop switchInLoopFunction = .ok g ∧
        switchInLoopFunction.descend? [2, 1, 2, 2] = some b ∧ b.kind = "break_statement" ∧
          spanId switchInLoop b.node ∈ g.ids ∧ enclosing? isBreakable b.above = some S ∧
          S.kind = "while_statement" ∧
            Undisputed switchInLoop b S ∧
              ∀ y, y ∈ g.successors (spanId switchInLoop b.node) ↔ Exits switchInLoop g S y := by
  obtain ⟨rs, hlegible, hg, hids, -, heval, -⟩ := switchInLoop_legible
  obtain ⟨b, S, hb, hS, heq⟩ := exists_owner heval
  simp only [Prod.mk.injEq, decide_eq_true_eq] at heq
  obtain ⟨hkind, hid, hwhile, hparent, hwaiting⟩ := heq
  have hmem : spanId switchInLoop b.node ∈ (graphOf rs).ids := by simp [hid, hids]
  have hu : Undisputed switchInLoop b S := by
    rw [Undisputed, hwhile]
    exact ⟨hparent, hwaiting⟩
  exact ⟨rs, _, b, S, hlegible, hg, hb, hkind, hmem, hS, hwhile, hu,
    (successors_break hlegible hg hb hkind hmem hS).2.2 hu⟩

/-- The break in the switch leads out of the loop as well, and not only to what comes after the
switch. -/
theorem exists_break_past_switch :
    ∃ g b S, controlFlow switchInLoop switchInLoopFunction = .ok g ∧
      switchInLoopFunction.descend? [2, 1, 2, 1, 2, 1, 3] = some b ∧ b.kind = "break_statement" ∧
        enclosing? isBreakable b.above = some S ∧ S.kind = "switch_statement" ∧
        spanId switchInLoop b.node ∈ g.ids ∧
          ∃ y ∈ g.successors (spanId switchInLoop b.node), ¬ Exits switchInLoop g S y := by
  obtain ⟨rs, -, hg, hids, hsucc, -, heval⟩ := switchInLoop_legible
  obtain ⟨b, S, hb, hS, heq⟩ := exists_owner heval
  simp only [Prod.mk.injEq] at heq
  obtain ⟨hkind, hid, hswitch, honward⟩ := heq
  refine ⟨_, b, S, hg, hb, hkind, hS, hswitch, by simp [hid, hids], 629985, by simp [hid, hsucc],
    ?_⟩
  rw [Exits, hswitch, honward, if_neg (by decide)]
  decide

/-! ### Continues -/

/-- The loop takes the continue, and no loop around it does. A while or for loop keeps its continues
from all but a do loop of which it is the body; a do loop takes what is below its body and keeps
nothing. -/
def KeptBy (c S : Locus) : Prop :=
  if isCountedLoop S.kind then parentIs S "do_statement" = false
  else parentIs c "do_statement" = false ∧ enclosing? isLoop S.above = none

theorem kind_of_uncounted {kind : String} (hloop : isLoop kind = true)
    (hcounted : isCountedLoop kind = false) :
    kind = "do_statement" := by
  simpa [isLoop, hcounted] using hloop

theorem mem_targets_kept (hloop : isLoop S.kind = true) (hS : enclosing? isLoop c.above = some S)
    (hkept : KeptBy c S) :
    y ∈ targets src "continue_statement" c.above ↔ headId? src S.node = some y := by
  rw [KeptBy] at hkept
  rw [mem_targets catches_continue hS]
  split at hkept
  · rename_i hcounted
    have hdo : S.node.kind ≠ "do_statement" := (kinds_of_counted hcounted).2.2
    have htakes : takes src "continue_statement" S = [spanId src S.node] := by
      simp [takes, hcounted]
    rw [htakes, outlets_of_parent hkept, headId?, if_neg hdo, hcounted, Option.some_inj]
    simp [doTakes, show S.kind ≠ _ from hdo, @eq_comm _ y]
  · rename_i hcounted
    have hcounted : isCountedLoop S.kind = false := Bool.not_eq_true _ |>.mp hcounted
    have hdo := kind_of_uncounted hloop hcounted
    rw [targets_of_free catches_continue hkept.2,
      outlets_of_parent (parentIs_of_free catches_continue hkept.2), headId?,
      if_pos (show S.node.kind = _ from hdo)]
    have htakes : takes src "continue_statement" S = [] := by simp [takes, hcounted]
    simp [htakes, doTakes, hdo, hkept.1]

theorem headId_mem_numbers (hloop : isLoop S.kind = true) (hleaf : S.node.isLeaf = false)
    (hy : headId? src S.node = some y) : y ∈ numbers src S.node := by
  refine mem_numbers.mpr (.inl ?_)
  rw [headId?] at hy
  split at hy
  · rename_i hdo
    rw [ownNumbers_do hleaf hdo, hy]
    exact List.mem_cons_self
  · rename_i hdo
    have hcounted : isCountedLoop S.kind = true := by
      simpa [isLoop, show S.kind ≠ _ from hdo] using hloop
    rw [ownNumbers_own hleaf (kinds_of_counted hcounted), ← Option.some_inj.mp hy]
    exact List.mem_cons_self

/-- A loop around a statement takes the continues below the statement, unless something on the way
keeps them. -/
theorem Inside.exists_outer (h : Inside f S) (hk : f.kind = "function_definition")
    (ho : orderlyInside f.node = true) {L : Locus} (hL : enclosing? isLoop S.above = some L) :
    ∃ y, y ∈ outlets src "continue_statement" S ∨ y ∈ targets src "continue_statement" S.above := by
  cases hp : parentIs S "do_statement" with
  | true =>
    obtain ⟨z, hz⟩ : ∃ z, outlets src "continue_statement" S = [z] := h.parent_do hk ho hp
    exact ⟨z, .inl (by simp [hz])⟩
  | false =>
    obtain ⟨hLin, hloop, -⟩ := h.enclosing hk ho hL
    have hmem : ∀ y, y ∈ takes src "continue_statement" L ∨ y ∈ doTakes src "continue_statement" L →
        y ∈ targets src "continue_statement" S.above := by
      intro y hy
      exact (mem_targets catches_continue hL).mpr (.inl (hy.imp_right fun hy => ⟨hp, hy⟩))
    cases hcounted : isCountedLoop L.kind with
    | true => exact ⟨spanId src L.node, .inr (hmem _ (.inl (by simp [takes, hcounted])))⟩
    | false =>
      have hdo := kind_of_uncounted hloop hcounted
      obtain ⟨z, hz⟩ : ∃ z, conditionId? src L.node = some z := hLin.condition ho hdo
      exact ⟨z, .inr (hmem z (.inr (by simp [doTakes, hdo, hz])))⟩

/-- If the head of the loop is the only target, the loop keeps the continue: any other target would
be outside. -/
theorem keptBy_of_targets (h : Inside f S) (hk : f.kind = "function_definition")
    (ho : orderlyInside f.node = true) (hd : (numbers src f.node).Nodup)
    (hloop : isLoop S.kind = true) (hleaf : S.node.isLeaf = false)
    (hS : enclosing? isLoop c.above = some S)
    (hy : ∀ y, y ∈ targets src "continue_statement" c.above ↔ headId? src S.node = some y) :
    KeptBy c S := by
  -- The head is one of the loop's own numbers, so nothing that takes continues from outside can be
  -- it.
  have hnone : ∀ y, headId? src S.node = some y → y ∉ outlets src "continue_statement" S ∧
      y ∉ targets src "continue_statement" S.above := by
    intro y hhead
    have hmem := headId_mem_numbers hloop hleaf hhead
    exact ⟨fun hout => h.outer hk ho hd (.inl hout) hmem,
      fun hout => h.outer hk ho hd (.inr hout) hmem⟩
  simp only [mem_targets catches_continue hS] at hy
  rw [KeptBy]
  split
  · by_contra hp
    obtain ⟨z, hz⟩ : ∃ z, outlets src "continue_statement" S = [z] :=
      h.parent_do hk ho (by simpa using hp)
    have hout : z ∈ outlets src "continue_statement" S := by simp [hz]
    exact (hnone z ((hy z).mp (.inr (.inl hout)))).1 hout
  · rename_i hcounted
    have hcounted : isCountedLoop S.kind = false := Bool.not_eq_true _ |>.mp hcounted
    have hdo := kind_of_uncounted hloop hcounted
    constructor
    · obtain ⟨z, hz⟩ : ∃ z, conditionId? src S.node = some z := h.condition ho hdo
      have hhead : headId? src S.node = some z := by
        rw [headId?, if_pos (show S.node.kind = _ from hdo), hz]
      rcases (hy z).mpr hhead with (htakes | hbody) | hout | hout
      · simp [takes, hcounted] at htakes
      · exact hbody.1
      · exact absurd hout (hnone z hhead).1
      · exact absurd hout.2 (hnone z hhead).2
    · -- A do loop keeps nothing back, so a loop around it would be another target.
      by_contra hL
      obtain ⟨L, hL⟩ := Option.ne_none_iff_exists'.mp hL
      obtain ⟨y, hout⟩ : ∃ y, y ∈ outlets src "continue_statement" S ∨
          y ∈ targets src "continue_statement" S.above :=
        h.exists_outer hk ho hL
      have hhead := (hy y).mp (.inr (hout.imp_right fun hout => ⟨hcounted, hout⟩))
      exact hout.elim (hnone y hhead).1 (hnone y hhead).2

/-- A continue leads to its targets, and to the head of its loop alone if and only if the loop keeps
it. -/
theorem successors_continue (h : Legible src f rs) (hg : controlFlow src f = .ok g)
    (hc : f.descend? path = some c) (hkind : c.kind = "continue_statement")
    (hmem : spanId src c.node ∈ g.ids) (hS : enclosing? isLoop c.above = some S) :
    (∀ y, y ∈ g.successors (spanId src c.node) ↔ y ∈ targets src "continue_statement" c.above) ∧
      ((∀ y, y ∈ g.successors (spanId src c.node) ↔ headId? src S.node = some y) ↔ KeptBy c S) := by
  obtain rfl := h.graph hg
  have hj : isJump c.kind = true := by rw [hkind]; rfl
  have hin := h.inside hc hj
  obtain ⟨hSin, hloop, hleaf, -⟩ := hin.enclosing h.function h.orderly hS
  have hsucc : ∀ y, y ∈ (graphOf rs).successors (spanId src c.node) ↔
      y ∈ targets src "continue_statement" c.above := by
    intro y
    rw [h.successors hin hj (mem_ids_graphOf.mp hmem), hkind]
  refine ⟨hsucc, ?_⟩
  simp only [hsucc]
  constructor
  · exact keptBy_of_targets hSin h.function h.orderly h.distinct hloop hleaf hS
  · exact fun hkept y => mem_targets_kept hloop hS hkept

/-- A do loop in a loop, each with a continue. -/
def doInLoop : Source := ⟨"void f()\x7bwhile(a)\x7bdo\x7bcontinue;\x7dwhile(b);continue;\x7d\x7d"⟩

def doInLoopFunction : Locus :=
  ⟨.bareFunction 0 4 (.node "compound_statement" 8 51 (some "body") [
    .node "\x7b" 8 9 none [],
    .node "while_statement" 9 50 none [
      .node "while" 9 14 none [],
      .node "parenthesized_expression" 14 17 (some "condition") [
        .node "(" 14 15 none [],
        .node "identifier" 15 16 none [],
        .node ")" 16 17 none []],
      .node "compound_statement" 17 50 (some "body") [
        .node "\x7b" 17 18 none [],
        .node "do_statement" 18 40 none [
          .node "do" 18 20 none [],
          .node "compound_statement" 20 31 (some "body") [
            .node "\x7b" 20 21 none [],
            .node "continue_statement" 21 30 none [.node "continue" 21 29 none [],
              .node ";" 29 30 none []],
            .node "\x7d" 30 31 none []],
          .node "while" 31 36 none [],
          .node "parenthesized_expression" 36 39 (some "condition") [
            .node "(" 36 37 none [],
            .node "identifier" 37 38 none [],
            .node ")" 38 39 none []],
          .node ";" 39 40 none []],
        .node "continue_statement" 40 49 none [.node "continue" 40 48 none [],
          .node ";" 48 49 none []],
        .node "\x7d" 49 50 none []]],
    .node "\x7d" 50 51 none []]), []⟩

theorem doInLoop_legible : ∃ rs, Legible doInLoop doInLoopFunction rs ∧
    controlFlow doInLoop doInLoopFunction = .ok (graphOf rs) ∧
      (graphOf rs).ids = [353949, 522149, 257629, 16801, 160795] ∧
        (graphOf rs).successors 522149 = [353949, 257629] ∧
    ((doInLoopFunction.descend? [2, 1, 2, 2]).bind fun c => (enclosing? isLoop c.above).map fun S =>
      (c.kind, spanId doInLoop c.node, S.kind, parentIs S "do_statement")) =
      some ("continue_statement", 16801, "while_statement", false) ∧
    ((doInLoopFunction.descend? [2, 1, 2, 1, 1, 1]).bind fun c =>
      (enclosing? isLoop c.above).map fun S =>
      (c.kind, spanId doInLoop c.node, S.kind, headId? doInLoop S.node)) =
      some ("continue_statement", 522149, "do_statement", some 257629) := by
  have hbuilt : (functionRecords doInLoop doInLoopFunction).toOption.map (fun rs =>
      ((rs.map (·.vertex)).all isVisible, (graphOf rs).ids, (graphOf rs).successors 522149)) =
      some (true, [353949, 522149, 257629, 16801, 160795], [353949, 257629]) := by decide +kernel
  obtain ⟨rs, hlegible, hg, heq⟩ :=
    exists_legible rfl (by decide +kernel) (by decide +kernel) hbuilt
  obtain ⟨hids, hsucc⟩ := Prod.mk.inj heq
  exact ⟨rs, hlegible, hg, hids, hsucc, by decide +kernel, by decide +kernel⟩

theorem successors_continue_loop :
    ∃ rs g c S, Legible doInLoop doInLoopFunction rs ∧
    controlFlow doInLoop doInLoopFunction = .ok g ∧
      doInLoopFunction.descend? [2, 1, 2, 2] = some c ∧ c.kind = "continue_statement" ∧
        spanId doInLoop c.node ∈ g.ids ∧ enclosing? isLoop c.above = some S ∧
        S.kind = "while_statement" ∧
          ∀ y, y ∈ g.successors (spanId doInLoop c.node) ↔ headId? doInLoop S.node = some y := by
  obtain ⟨rs, hlegible, hg, hids, -, heval, -⟩ := doInLoop_legible
  obtain ⟨c, S, hc, hS, heq⟩ := exists_owner heval
  simp only [Prod.mk.injEq] at heq
  obtain ⟨hkind, hid, hwhile, hparent⟩ := heq
  have hmem : spanId doInLoop c.node ∈ (graphOf rs).ids := by simp [hid, hids]
  have hkept : KeptBy c S := by
    rw [KeptBy, hwhile]
    exact hparent
  exact ⟨rs, _, c, S, hlegible, hg, hc, hkind, hmem, hS, hwhile,
    (successors_continue hlegible hg hc hkind hmem hS).2.mpr hkept⟩

/-- The continue in the do loop leads to the head of the loop around as well, and not only to its
own condition. -/
theorem exists_continue_past_do :
    ∃ g c S, controlFlow doInLoop doInLoopFunction = .ok g ∧
      doInLoopFunction.descend? [2, 1, 2, 1, 1, 1] = some c ∧ c.kind = "continue_statement" ∧
        enclosing? isLoop c.above = some S ∧ S.kind = "do_statement" ∧
        spanId doInLoop c.node ∈ g.ids ∧
          ∃ y ∈ g.successors (spanId doInLoop c.node), headId? doInLoop S.node ≠ some y := by
  obtain ⟨rs, -, hg, hids, hsucc, -, heval⟩ := doInLoop_legible
  obtain ⟨c, S, hc, hS, heq⟩ := exists_owner heval
  simp only [Prod.mk.injEq] at heq
  obtain ⟨hkind, hid, hdo, hhead⟩ := heq
  refine ⟨_, c, S, hg, hc, hkind, hS, hdo, by simp [hid, hids], 353949, by simp [hid, hsucc], ?_⟩
  rw [hhead]
  decide

end CrossCall.Flow
