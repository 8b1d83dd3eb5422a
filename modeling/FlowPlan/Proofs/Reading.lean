import FlowPlan.Proofs.Grammar

/-! # Reading expressions

Every text of the grammar is read as the condition that it stands for. A chain
is split into exactly the operands that it is derived from, and of an operand
the first characters and the comparators outside quotes and parentheses tell
what kind it is.
-/

namespace FlowPlan

open Text (IsGap IsTight IsDottedName Lists)

namespace Condition

variable {σ : Type} [Keyed σ]

/-! ## Reading by rank -/

section Equations

variable {scope : StepScope σ} {text : Text}

theorem ofOperand_of_unwrap? {inner : Text} (unwrapped : Text.unwrap? text = some inner) :
    ofOperand scope text = ofExpression scope (Text.trim inner) := by
  rw [ofOperand]
  split
  · rename_i found
    rw [unwrapped] at found
    cases found
    rfl
  · rename_i none
    rw [unwrapped] at none
    cases none

theorem ofOperand_of_negatedPart? {part : Text} (bare : Text.unwrap? text = none)
    (negated : negatedPart? text = some part) :
    ofOperand scope text = (ofOperand scope part).negate := by
  rw [ofOperand]
  split
  · rename_i found
    rw [bare] at found
    cases found
  · split
    · rename_i found
      rw [negated] at found
      cases found
      rfl
    · rename_i none
      rw [negated] at none
      cases none

theorem negatedPart?_eq_none (unmarked : text.head? ≠ some '!') : negatedPart? text = none := by
  rw [negatedPart?.eq_def]
  split
  · exact absurd rfl unmarked
  · rfl

theorem ofOperand_of_none (bare : Text.unwrap? text = none) (unmarked : negatedPart? text = none) :
    ofOperand scope text = leaf scope text := by
  rw [ofOperand]
  split
  · rename_i found
    rw [bare] at found
    cases found
  · split
    · rename_i found
      rw [unmarked] at found
      cases found
    · rfl

theorem ofOperand_eq_leaf (starts : StartsName text) :
    ofOperand scope text = leaf scope text :=
  ofOperand_of_none (Text.unwrap?_eq_none (starts.head?_ne (by decide)))
    (negatedPart?_eq_none (starts.head?_ne (by decide)))

end Equations

/-- The condition of a chain whose operands are read by the given function. -/
def ofChain (connective : Connective) (read : Text → Condition σ) (text : Text) : Condition σ :=
  (connective.joinAll ((Text.splitAround connective.token text).map fun part =>
    read (Text.trim part))).getD (.raw text [])

def ofRank (scope : StepScope σ) : Rank → Text → Condition σ
  | .chain .or => ofChain .or (ofChain .and (ofOperand scope))
  | .chain .and => ofChain .and (ofOperand scope)
  | .operand | .negation => ofOperand scope

theorem joinAll_isSome (connective : Connective) {conditions : List (Condition σ)}
    (some : conditions ≠ []) : (connective.joinAll conditions).isSome = true := by
  cases conditions with
  | nil => exact absurd rfl some
  | cons => cases connective <;> rfl

/-- It does not matter what a chain without operands would be. -/
theorem ofChain_eq (connective : Connective) (read : Text → Condition σ) (text : Text)
    (default : Condition σ) :
    (connective.joinAll ((Text.splitAround connective.token text).map fun part =>
      read (Text.trim part))).getD default = ofChain connective read text := by
  have parts : (Text.splitAround connective.token text).map (fun part => read (Text.trim part)) ≠
      [] := mt List.map_eq_nil_iff.mp (Nesting.splitAround_ne_nil _ _)
  rcases Option.isSome_iff_exists.mp (joinAll_isSome connective parts) with ⟨condition, found⟩
  rw [ofChain, found]
  rfl

theorem ofExpression_eq (scope : StepScope σ) (text : Text) :
    ofExpression scope text = ofRank scope (.chain .or) text := by
  have attached : ∀ (texts : List Text) (read : Text → Condition σ),
      (texts.attach.map fun text => read text.1) = texts.map read := fun texts read => by
    simp
  have factors : ∀ alternative : Text,
      (allOf ((Text.splitAround ['&', '&'] (Text.trim alternative)).attach.map fun factor =>
        ofOperand scope (Text.trim factor.1))).getD (.raw alternative []) =
          ofChain .and (ofOperand scope) (Text.trim alternative) := by
    intro alternative
    rw [attached _ fun factor => ofOperand scope (Text.trim factor)]
    exact ofChain_eq .and (ofOperand scope) (Text.trim alternative) _
  rw [ofExpression]
  simp only [factors]
  rw [attached _ fun alternative => ofChain .and (ofOperand scope) (Text.trim alternative)]
  rfl

/-- How the text of a part is read. A chain is read part by part. -/
def Reads (scope : StepScope σ) : Rank → Text → Condition σ → Prop
  | .chain connective, text, condition =>
    ∃ parts ≠ [], Lists connective.token parts text ∧
      (∀ part ∈ parts, IsPhrase connective.operandRank part) ∧
      connective.joinAll (parts.map (ofRank scope connective.operandRank)) = some condition
  | rank, text, condition => ofRank scope rank text = condition

theorem ofRank_chain (scope : StepScope σ) (connective : Connective) :
    ofRank scope (.chain connective) = ofChain connective (ofRank scope connective.operandRank) := by
  cases connective <;> rfl

theorem ofRank_of_reads {scope : StepScope σ} {rank : Rank} {text : Text}
    {condition : Condition σ} (reads : Reads scope rank text condition) :
    ofRank scope rank text = condition := by
  cases rank with
  | operand | negation => exact reads
  | chain connective =>
      rcases reads with ⟨parts, some, lists, phrases, joined⟩
      have marked : connective.mark ∈ connective.operandRank.hidden := by
        cases connective <;> decide
      have solid : Text.isBlank connective.mark = false := by
        cases connective <;> decide
      rw [Connective.token_eq] at lists
      have found := lists.map_trim_splitAround some connective.admits_mark solid
        (fun part mem => (phrases part mem).tight) (fun part mem => (phrases part mem).hides marked)
        IsGap.nil
      have read : (Text.splitAround connective.token text).map (fun part =>
          ofRank scope connective.operandRank (Text.trim part)) =
            parts.map (ofRank scope connective.operandRank) := by
        rw [Connective.token_eq, ← found, List.map_map]
        rfl
      rw [ofRank_chain, ofChain, read, joined, Option.getD_some]

/-! ## Reading phrases -/

variable {scope : StepScope σ}

theorem joinAll_append {connective : Connective} {conditions : List (Condition σ)}
    {front : Condition σ} (joined : connective.joinAll conditions = some front)
    (back : Condition σ) :
    connective.joinAll (conditions ++ [back]) = some (connective.join front back) := by
  cases conditions with
  | nil => cases connective <;> cases joined
  | cons head tail =>
      cases connective <;> cases joined <;>
        simp [Connective.joinAll, Connective.join, allOf, anyOf]

theorem negatedPart?_mark {gap text : Text} (isGap : IsGap gap) (phrase : IsPhrase .negation text) :
    negatedPart? ('!' :: (gap ++ text)) = some text := by
  have trimmed : Text.trim (gap ++ text) = text := by
    rw [Text.trim_gap_append isGap, phrase.tight.trim_eq]
  have noEqual : text.head? ≠ some '=' := phrase.head?_ne (by decide) (by decide) (by decide)
  have noComparator := findComparator?_eq_none (phrase.passes '=' (by decide))
    (phrase.passes '<' (by decide)) (phrase.passes '>' (by decide))
  simp [negatedPart?, trimmed, noEqual, noComparator]

theorem call?_of_isDottedName {text : Text} (isName : IsDottedName text) :
    call? scope text = none := by
  have absent : '(' ∉ text := fun mem =>
    Text.ne_of_isDottedChar (isName.2 _ mem) (by decide) rfl
  have passes : ∀ c ∈ text, decide (c ≠ '(') = true := by
    intro c mem
    exact decide_eq_true fun equal => absent (equal ▸ mem)
  have nothing : text.dropWhile (· ≠ '(') = [] := by
    rw [← List.append_nil text, List.dropWhile_append_of_pos passes]
    rfl
  rw [call?, nothing]
  dsimp only
  split <;> rfl

theorem reads_of_derives {rank : Rank} {text : Text} {condition : Condition σ}
    (derived : Derives scope rank text condition) :
    IsPhrase rank text ∧ Reads scope rank text condition := by
  induction derived with
  | @alone connective text condition _ induction =>
      refine ⟨induction.1.mono fun _ => Connective.mem_hidden_operandRank, [text],
        List.cons_ne_nil text [], .single text, List.forall_mem_singleton.mpr induction.1, ?_⟩
      rw [List.map_singleton, ofRank_of_reads induction.2]
      cases connective <;> rfl
  | @joined connective front back before after left right _ beforeGap afterGap _ frontInduction
      backInduction =>
      rcases frontInduction with ⟨frontPhrase, parts, some, lists, phrases, joined⟩
      rcases backInduction with ⟨backPhrase, backReads⟩
      refine ⟨frontPhrase.joined beforeGap afterGap backPhrase, parts ++ [back],
        List.append_ne_nil_of_left_ne_nil some [back],
        lists.append (.single back) some (List.cons_ne_nil back []) beforeGap afterGap, ?_, ?_⟩
      · intro part mem
        rcases List.mem_append.mp mem with inFront | isBack
        · exact phrases part inFront
        · exact List.mem_singleton.mp isBack ▸ backPhrase
      · rw [List.map_append, List.map_singleton, ofRank_of_reads backReads]
        exact joinAll_append joined right
  | comparison name beforeGap afterGap plain written =>
      subst written
      refine ⟨.comparison name beforeGap afterGap, ?_⟩
      rw [sources_comparison scope name beforeGap afterGap]
      refine (ofOperand_eq_leaf ?_).trans ?_
      · rw [List.append_assoc]
        exact Text.exists_head?_append (startsName name) _
      · rw [leaf, comparison?_of_token scope name beforeGap afterGap _ plain]
        rfl
  | bare _ induction => exact ⟨induction.1.mono (by decide), induction.2⟩
  | negated isGap _ induction =>
      refine ⟨induction.1.negated isGap, ?_⟩
      refine (ofOperand_of_negatedPart? ?_ (negatedPart?_mark isGap induction.1)).trans
        (congrArg negate induction.2)
      exact Text.unwrap?_eq_none (by simp)
  | parenthesized beforeGap afterGap _ induction =>
      have faultless := Nesting.fault?_eq_none_of_append
        (Nesting.fault?_eq_none_of_append (Nesting.fault?_of_isInert beforeGap.isInert)
          induction.1.faultless) (Nesting.fault?_of_isInert afterGap.isInert)
      refine ⟨.parenthesized faultless, ?_⟩
      refine (ofOperand_of_unwrap? (Text.unwrap?_parenthesized faultless)).trans ?_
      rw [induction.1.tight.trim_surrounded beforeGap afterGap, ofExpression_eq,
        ofRank_of_reads induction.2]
  | call identifier beforeGap afterGap lists proper written =>
      subst written
      have faultless := fault?_arguments lists proper beforeGap afterGap
      have phrase := IsPhrase.call identifier faultless
      refine ⟨phrase, ?_⟩
      refine (ofOperand_eq_leaf (Text.exists_head?_append (startsName identifier.isDottedName) _)).trans ?_
      rw [leaf, comparison?_eq_none scope (phrase.passes '=' (by decide))
        (phrase.passes '<' (by decide)) (phrase.passes '>' (by decide)),
        call?_of_lists scope identifier lists proper beforeGap afterGap]
      rfl
  | name isName =>
      have phrase := IsPhrase.name isName
      refine ⟨phrase, ?_⟩
      refine (ofOperand_eq_leaf (startsName isName)).trans ?_
      rw [leaf, comparison?_eq_none scope (phrase.passes '=' (by decide))
        (phrase.passes '<' (by decide)) (phrase.passes '>' (by decide)),
        call?_of_isDottedName isName]
      rfl

end Condition

/-! ## Marked expressions -/

/-- The text shows the expression on its own, or marked by `$` and doubled braces. -/
inductive Text.Shows (body : Text) : Text → Prop
  | plain {before after : Text} (beforeGap : IsGap before) (afterGap : IsGap after) :
      Shows body (before ++ body ++ after)
  | marked {before front back after : Text} (beforeGap : IsGap before) (frontGap : IsGap front)
      (backGap : IsGap back) (afterGap : IsGap after) :
      Shows body (before ++
        (['$', '\x7b', '\x7b'] ++ (front ++ body ++ back) ++ ['\x7d', '\x7d']) ++ after)

theorem Text.expressionBody_of_shows {body text : Text} (shows : Shows body text)
    (tight : IsTight body) (unmarked : body.head? ≠ some '$') : expressionBody text = body := by
  cases shows with
  | plain beforeGap afterGap =>
      have noMark : dropStart? ['$', '\x7b', '\x7b'] body = none := by
        cases body with
        | nil => rfl
        | cons head tail =>
            have other : '$' ≠ head := fun equal => unmarked (by rw [equal]; rfl)
            rw [dropStart?, if_neg other]
      simp only [expressionBody, tight.trim_surrounded beforeGap afterGap, noMark, Option.bind_none]
  | @marked before front back after beforeGap frontGap backGap afterGap =>
      have opening : IsTight ['$', '\x7b', '\x7b'] := .of_forall (List.cons_ne_nil _ _) (by decide)
      have closing : IsTight ['\x7d', '\x7d'] := .of_forall (List.cons_ne_nil _ _) (by decide)
      have whole := opening.append (front ++ body ++ back) closing
      have inside : (dropStart? ['$', '\x7b', '\x7b'] (['$', '\x7b', '\x7b'] ++
          (front ++ body ++ back) ++ ['\x7d', '\x7d'])).bind (dropEnding? ['\x7d', '\x7d']) =
            some (front ++ body ++ back) := by
        rw [List.append_assoc, dropStart?_append_self, Option.bind_some, dropEnding?_append_self]
      simp only [expressionBody, whole.trim_surrounded beforeGap afterGap, inside,
        tight.trim_surrounded frontGap backGap]

namespace Condition

variable {σ : Type} [Keyed σ] {scope : StepScope σ} {body text : Text} {condition : Condition σ}

theorem parse_of_reads (phrase : IsPhrase (.chain .or) body)
    (reads : Reads scope (.chain .or) body condition) (shows : Text.Shows body text) :
    parse scope text = .ok condition := by
  have unmarked : body.head? ≠ some '$' := phrase.head?_ne (by decide) (by decide) (by decide)
  have present : body.isEmpty = false := List.isEmpty_eq_false_iff.mpr phrase.tight.ne_nil
  simp only [parse, Text.expressionBody_of_shows shows phrase.tight unmarked, present,
    Bool.false_eq_true, if_false, phrase.faultless]
  rw [ofExpression_eq, ofRank_of_reads reads]

/-- Every text of the grammar is read as the condition that it stands for. -/
theorem parse_of_derives (derived : Derives scope (.chain .or) body condition)
    (shows : Text.Shows body text) : parse scope text = .ok condition := by
  rcases reads_of_derives derived with ⟨phrase, reads⟩
  exact parse_of_reads phrase reads shows

/-- A string may look like the operators around it. -/
theorem parse_of_derives_guarded_choice :
    parse (StepScope.none : StepScope Step)
        "$\x7b\x7b !a && (b == 'c || d' || e(f)) \x7d\x7d".toList =
      .ok (.joined .and (.negated (.raw ['a'] []))
        (.joined .or (.comparison ['b'] .equal (.string "c || d".toList) [])
          (.call ['e'] [['f']] []))) := by
  let scope : StepScope Step := .none
  have blank := IsGap.blank
  have nothing := IsGap.nil
  have isName : ∀ c, Text.isDottedChar c = true → IsDottedName [c] := fun c dotted =>
    ⟨List.cons_ne_nil c [], List.forall_mem_singleton.mpr dotted⟩
  have argument : Text.IsArgument ['f'] :=
    ⟨.of_isDottedName (isName 'f' rfl), rfl, fun _ => by decide, trivial⟩
  have quiet : ∀ text : Text, '.' ∉ text → Text.sources scope text = [] := by
    intro text absent
    rw [Text.sources, Text.references_eq_nil_of_not_mem absent]
    rfl
  have negation : Derives scope .operand ['!', 'a'] (.negated (.raw ['a'] [])) := by
    have name : Derives scope .negation ['a'] (.raw ['a'] (Text.sources scope ['a'])) :=
      .name (isName 'a' rfl)
    rw [quiet ['a'] (by decide)] at name
    exact .bare (.negated nothing name)
  have comparison : Derives scope .operand "b == 'c || d'".toList
      (.comparison ['b'] .equal (.string "c || d".toList) []) := by
    have reads := quiet "b == 'c || d'".toList (by decide)
    exact reads ▸ .comparison (isName 'b' rfl) blank blank trivial rfl
  have call : Derives scope .operand "e(f)".toList (.call ['e'] [['f']] []) := by
    have reads := quiet "e(f)".toList (by decide)
    exact .bare (reads ▸ .call ⟨List.cons_ne_nil 'e' [], by decide⟩ nothing nothing (.single ['f'])
      (List.forall_mem_singleton.mpr argument) rfl)
  have choice : Derives scope (.chain .or)
      ("b == 'c || d'".toList ++ ([' '] ++ Connective.or.token ++ [' ']) ++ "e(f)".toList)
      (Connective.or.join (.comparison ['b'] .equal (.string "c || d".toList) [])
        (.call ['e'] [['f']] [])) :=
    .joined (.alone (.alone comparison)) blank blank (.alone call)
  have whole : Derives scope (.chain .and)
      (['!', 'a'] ++ ([' '] ++ Connective.and.token ++ [' ']) ++
        "(b == 'c || d' || e(f))".toList)
      (Connective.and.join (.negated (.raw ['a'] []))
        (Connective.or.join (.comparison ['b'] .equal (.string "c || d".toList) [])
          (.call ['e'] [['f']] []))) :=
    .joined (.alone negation) blank blank (.bare (.parenthesized nothing nothing choice))
  exact parse_of_derives (.alone whole) (.marked nothing blank blank nothing)

end Condition

end FlowPlan
