import RubySig.Proofs.Tree.TyPlaces

/-!
The order of parameters. A parameter list consists of entries with commas between them, and each
entry is stored once, behind the entries of its kind that stand before it. Positional parameters
stand in the order in which a signature has them, and named ones behind them. No positional
parameter stands behind `**`, but keywords may.
-/
namespace RubySig.Grammar

namespace ParamSlot

def isNamed : ParamSlot → Bool
  | .keyword _ _ _ | .restKeywords _ => true
  | _ => false

/-- The keyword parameter that an entry is, if it is required or optional as asked for. -/
def keywordParam? (optional : Bool) : ParamSlot → Option (String × Param)
  | .keyword name maybe p => if maybe = optional then some (name, p) else none
  | _ => none

def restKeywords? : ParamSlot → Option Param
  | .restKeywords p => some p
  | _ => none

end ParamSlot

/-- The entry that may come next, and how far the list is behind it. A keyword may come anywhere. -/
inductive MayFollow : Stage → Params → ParamSlot → Stage → Prop where
  | required {ps p} : MayFollow .required ps (.required p) .required
  | trailing {ps p} : MayFollow .trailing ps (.trailing p) .trailing
  | optional {stage ps p} : stage = .required ∨ stage = .optional →
      MayFollow stage ps (.optional p) .optional
  | rest {stage ps p} : stage = .required ∨ stage = .optional →
      MayFollow stage ps (.rest p) .trailing
  | keyword {stage ps name maybe p} : ps.hasKeyword name = false →
      MayFollow stage ps (.keyword name maybe p) .keywords
  | restKeywords {stage ps p} : ps.restKeywords = none → MayFollow stage ps (.restKeywords p) .done

/-- Entries that may come one behind the other, and the parameters with them. -/
inductive Fills : Stage → Params → List ParamSlot → Params → Prop where
  | nil {stage ps} : Fills stage ps [] ps
  | cons {stage ps s next slots qs} : MayFollow stage ps s next → Fills next (ps.add s) slots qs →
      Fills stage ps (s :: slots) qs

section Spelled

variable (P : List Token → Param → Prop)

/-- The tokens of an entry, given what those of its parameter are. -/
inductive Spelled : List Token → ParamSlot → Prop where
  | required {w p} : P w p → Spelled w (.required p)
  | trailing {w p} : P w p → Spelled w (.trailing p)
  | optional {t w p} : t.lexeme = .mark .question → P w p → Spelled (t :: w) (.optional p)
  | rest {t w p} : t.lexeme = .mark .star → P w p → Spelled (t :: w) (.rest p)
  | keyword {t u w name p} : t.lexeme.name? = some name → u.lexeme = .mark .colon → P w p →
      Spelled (t :: u :: w) (.keyword name false p)
  | optionalKeyword {q t u w name p} : q.lexeme = .mark .question → t.lexeme.name? = some name →
      u.lexeme = .mark .colon → P w p → Spelled (q :: t :: u :: w) (.keyword name true p)
  | restKeywords {t w p} : t.lexeme = .mark .doubleStar → P w p → Spelled (t :: w) (.restKeywords p)

/-- The tokens of entries with commas between them; a comma may stand behind the last one. -/
inductive Listed : List Token → List ParamSlot → Prop where
  | nil : Listed [] []
  | last {w s} : Spelled P w s → Listed w [s]
  | cons {w s t v slots} : Spelled P w s → t.lexeme = .mark .comma → Listed v slots →
      Listed (w ++ t :: v) (s :: slots)

end Spelled

variable {c : Context} {s : State} {n fuel : Nat} {type : Parser Ty} {stage : Stage} {ps : Params}
  {P : List Token → Param → Prop}

theorem keywordAt_some {optional maybe : Bool} {name : Option String} {behind : Option Lexeme}
    {keyword : String} (h : keywordAt optional name behind = some (keyword, maybe)) :
    maybe = optional ∧ name = some keyword ∧ behind = some (.mark .colon) := by
  unfold keywordAt at h
  split at h
  · cases h
    exact ⟨rfl, rfl, rfl⟩
  · cases h

theorem named_head (ts : List Token) {name : String}
    (h : ((ts.map (·.lexeme))[0]?).bind Lexeme.name? = some name)
    (hcolon : (ts.map (·.lexeme))[1]? = some (.mark .colon)) :
    ∃ t u rest, ts = t :: u :: rest ∧ t.lexeme.name? = some name ∧ u.lexeme = .mark .colon := by
  cases ts with
  | nil => cases h
  | cons t ts =>
    cases ts with
    | nil => cases hcolon
    | cons u rest => exact ⟨t, u, rest, rfl, h, Option.some.inj hcolon⟩

/-- Tokens that are known to come next are passed. -/
theorem advance_exact {β : Type} {f : Unit → Parser β} {Q : β → State → Prop} {k : Nat}
    {w rest : List Token} (hw : s.tokens = w ++ rest) (hk : w.length = k)
    (h : ∀ s', Passed w s s' → Yields c s' (f ()) Q) :
    Yields c s (advance k >>= f) Q := by
  have htake : s.tokens.take k = w := by rw [hw, ← hk, List.take_left]
  refine h _ ?_
  simpa only [htake] using Passed.advance k s

/-- A keyword parameter starts with its name and a colon, and with a question mark before them if it
is optional. -/
theorem keywordParam_yields_head : Yields c s keywordParam? fun keyword s' => s' = s ∧
    ∀ name maybe, keyword = some (name, maybe) →
      ∃ q t u rest, s.tokens = q ++ t :: u :: rest ∧ t.lexeme.name? = some name ∧
        u.lexeme = .mark .colon ∧
        (if maybe then ∃ v, q = [v] ∧ v.lexeme = .mark .question else q = []) := by
  obtain ⟨tokens, last, blocks⟩ := s
  intro keyword s' h
  rw [keywordParam_eq] at h
  cases h
  refine ⟨rfl, ?_⟩
  intro name maybe h
  obtain ⟨hmaybe, hname, hcolon⟩ := keywordAt_some h
  cases hquestion : (tokens.map (·.lexeme)).head? == some (.mark .question) with
  | false =>
    rw [hquestion] at hmaybe hname hcolon
    obtain ⟨t, u, rest, rfl, ht, hu⟩ := named_head tokens hname hcolon
    exact ⟨[], t, u, rest, rfl, ht, hu, by simp [hmaybe]⟩
  | true =>
    rw [hquestion] at hmaybe hname hcolon
    cases tokens with
    | nil => cases hquestion
    | cons v tokens =>
      obtain ⟨t, u, rest, rfl, ht, hu⟩ := named_head tokens hname hcolon
      have hv : v.lexeme = .mark .question := by simpa using hquestion
      exact ⟨[v], t, u, rest, rfl, ht, hu, by simp [hmaybe, hv]⟩

/-- What comes behind the name of a keyword parameter. -/
theorem keyword_spelled (h : Covers c n (param type) P) (hs : s.tokens.length ≤ n) {name : String}
    {maybe : Bool} {q rest : List Token} {t u : Token} (htokens : s.tokens = q ++ t :: u :: rest)
    (ht : t.lexeme.name? = some name) (hu : u.lexeme = .mark .colon)
    (hq : if maybe then ∃ v, q = [v] ∧ v.lexeme = .mark .question else q = []) :
    Passes c s (do
      advance (if maybe then 3 else 2)
      let p ← param type
      if ps.hasKeyword name then failAt (← lastPlace) (.duplicateKeyword name)
      else if maybe then
        return (.keywords, { ps with optionalKeywords := ps.optionalKeywords ++ [(name, p)] })
      else return (.keywords, { ps with requiredKeywords := ps.requiredKeywords ++ [(name, p)] }))
      fun w r => ∃ entry, Spelled P w entry ∧ MayFollow stage ps entry r.1 ∧
        r.2 = ps.add entry := by
  have hsplit : s.tokens = (q ++ [t, u]) ++ rest := by simpa using htokens
  have hlength : (q ++ [t, u]).length = if maybe then 3 else 2 := by
    cases maybe with
    | false => simpa using hq
    | true =>
      obtain ⟨v, rfl, -⟩ := hq
      rfl
  refine advance_exact hsplit hlength fun s₁ h₁ => ?_
  refine (h.behind hs h₁).bind ?_
  rintro p s₂ ⟨v, h₂, hp⟩
  refine .ite (fun _ => .lastPlace_bind fun q => .failAt) fun hfresh => ?_
  have hfollows : MayFollow stage ps (.keyword name maybe p) .keywords :=
    .keyword (Bool.not_eq_true _ ▸ hfresh)
  cases maybe with
  | false =>
    obtain rfl := hq
    exact .pure ⟨_, h₂, _, .keyword ht hu hp, hfollows, rfl⟩
  | true =>
    obtain ⟨question, rfl, hquestion⟩ := hq
    exact .pure ⟨_, h₂, _, .optionalKeyword hquestion ht hu hp, hfollows, rfl⟩

/-- Any other entry is read behind its mark. -/
theorem added_spelled (h : Covers c n (param type) P) (hs : s.tokens.length ≤ n) {w : List Token}
    {s₁ : State} {next : Stage} (h₁ : Passed w s s₁) (build : Param → ParamSlot)
    (hspelled : ∀ v p, P v p → Spelled P (w ++ v) (build p))
    (hfollows : ∀ p, MayFollow stage ps (build p) next) : Yields c s₁ (do
      let p ← param type
      return (next, ps.add (build p))) fun r s' => ∃ w, Passed w s s' ∧
        ∃ entry, Spelled P w entry ∧ MayFollow stage ps entry r.1 ∧ r.2 = ps.add entry := by
  refine (h.behind hs h₁).bind ?_
  rintro p s₂ ⟨v, h₂, hp⟩
  exact .pure ⟨_, h₂, build p, hspelled v p hp, hfollows p, rfl⟩

theorem slot_spelled (h : Covers c n (param type) P) (hs : s.tokens.length ≤ n) :
    Passes c s (slot type stage ps) fun w r =>
      ∃ entry, Spelled P w entry ∧ MayFollow stage ps entry r.1 ∧ r.2 = ps.add entry := by
  unfold slot
  refine keywordParam_yields_head.bind ?_
  rintro keyword s₁ ⟨rfl, hhead⟩
  split
  case _ name maybe =>
    obtain ⟨q, t, u, rest, htokens, ht, hu, hq⟩ := hhead name maybe rfl
    exact keyword_spelled h hs htokens ht hu hq
  case _ =>
    refine .eat_next (fun t s₂ ht h₂ => ?_) ?_
    · refine .ite (fun _ => .lastPlace_bind fun q => .failAt) fun hrest => ?_
      have hnone : ps.restKeywords = none := by simpa using hrest
      exact added_spelled h hs h₂ .restKeywords (fun v p hp => .restKeywords ht hp) fun p =>
        .restKeywords hnone
    refine .ite (fun _ => .failHere) fun _ => .eat_next (fun t s₂ ht h₂ => ?_) ?_
    · refine .ite (fun hstage => ?_) fun _ => .lastPlace_bind fun q => .failAt
      have hearly : stage = .required ∨ stage = .optional := by simpa using hstage
      exact added_spelled h hs h₂ .optional (fun v p hp => .optional ht hp) fun p =>
        .optional hearly
    refine .eat_next (fun t s₂ ht h₂ => ?_) ?_
    · refine .ite (fun hstage => ?_) fun _ => .lastPlace_bind fun q => .failAt
      have hearly : stage = .required ∨ stage = .optional := by simpa using hstage
      exact added_spelled h hs h₂ .rest (fun v p hp => .rest ht hp) fun p => .rest hearly
    · split
      · exact added_spelled h hs (.refl _) .required (fun v p hp => .required hp) fun p => .required
      · exact added_spelled h hs (.refl _) .trailing (fun v p hp => .trailing hp) fun p => .trailing
      · exact .failHere

theorem params_listed (h : Covers c n (param type) P) (fuel : Nat) (hs : s.tokens.length ≤ n) :
    Passes c s (params type fuel stage ps) fun w qs =>
      ∃ slots, Listed P w slots ∧ Fills stage ps slots qs := by
  induction fuel generalizing s stage ps with
  | zero =>
    unfold params
    exact .pure ⟨[], .refl s, [], .nil, .nil⟩
  | succ fuel ih =>
    rw [params_succ]
    refine .isNext_if (fun _ => .pure ⟨[], .refl s, [], .nil, .nil⟩) ?_
    refine (slot_spelled h hs).bind ?_
    rintro ⟨next, qs⟩ s₁ ⟨w₁, h₁, entry, hentry, hfollows, rfl⟩
    refine .eat_next (fun t s₂ ht h₂ => ?_)
      (.pure ⟨w₁, h₁, [entry], .last hentry, .cons hfollows .nil⟩)
    have := h₁.length
    have := h₂.length
    refine (ih (s := s₂) (by omega)).imp ?_
    rintro rs s₃ ⟨w₃, h₃, slots, hslots, hfills⟩
    refine ⟨_, h₁.trans (h₂.trans h₃), entry :: slots, ?_, ?_⟩
    · exact .cons hentry ht hslots
    · exact .cons hfollows hfills

/-- The entries of positional parameters, in the order of a signature. -/
def Params.positional (ps : Params) : List ParamSlot :=
  ps.required.map .required ++ ps.optional.map .optional ++ ps.rest.toList.map .rest ++
    ps.trailing.map .trailing

/-- What named entries store, and that there are trailing parameters only behind `*`. -/
structure Params.Holds (ps : Params) (named : List ParamSlot) : Prop where
  behindRest : ps.trailing ≠ [] → ps.rest.isSome = true
  isNamed : ∀ s ∈ named, s.isNamed = true
  requiredKeywords : ps.requiredKeywords = named.filterMap (·.keywordParam? false)
  optionalKeywords : ps.optionalKeywords = named.filterMap (·.keywordParam? true)
  restKeywords : ps.restKeywords.toList = named.filterMap (·.restKeywords?)
  names : (named.filterMap (·.keyword?)).Nodup

/-- What a list can hold that has come so far. -/
def Stage.Allows : Stage → Params → List ParamSlot → Prop
  | .required, ps, named => ps.optional = [] ∧ ps.rest = none ∧ ps.trailing = [] ∧ named = []
  | .optional, ps, named => ps.rest = none ∧ ps.trailing = [] ∧ named = []
  | .trailing, ps, named => ps.rest.isSome = true ∧ named = []
  | .keywords, _, _ | .done, _, _ => True

namespace Params

theorem Holds.empty : Params.empty.Holds [] := by
  constructor <;> simp [Params.empty]

/-- A name that no keyword has is new among the named entries. -/
theorem Holds.fresh {named : List ParamSlot} {name : String} (h : ps.Holds named)
    (hname : ps.hasKeyword name = false) : name ∉ named.filterMap (·.keyword?) := by
  intro hmem
  apply keyword_fresh hname
  obtain ⟨slot, hslot, hkeyword⟩ := List.mem_filterMap.mp hmem
  cases slot with
  | keyword other maybe p =>
    cases hkeyword
    have hstored : (name, p) ∈ named.filterMap (·.keywordParam? maybe) :=
      List.mem_filterMap.mpr ⟨_, hslot, if_pos rfl⟩
    rw [h.requiredKeywords, h.optionalKeywords, List.map_append, List.mem_append]
    cases maybe with
    | false => exact .inl (List.mem_map.mpr ⟨_, hstored, rfl⟩)
    | true => exact .inr (List.mem_map.mpr ⟨_, hstored, rfl⟩)
  | _ => cases hkeyword

theorem Holds.keyword {named : List ParamSlot} {name : String} (h : ps.Holds named)
    (hname : ps.hasKeyword name = false) (maybe : Bool) (p : Param) :
    (ps.add (.keyword name maybe p)).Holds (named ++ [.keyword name maybe p]) := by
  have hnames : (named.filterMap (·.keyword?) ++ [name]).Nodup := by
    refine List.nodup_append.mpr ⟨h.names, by simp, ?_⟩
    rintro other hother _ hmem rfl
    obtain rfl := List.mem_singleton.mp hmem
    exact h.fresh hname hother
  have hisNamed : ∀ s ∈ named ++ [.keyword name maybe p], s.isNamed = true :=
    forall_mem_snoc h.isNamed rfl
  cases maybe <;>
    exact {
      behindRest := h.behindRest
      isNamed := hisNamed
      requiredKeywords := by simp [Params.add, h.requiredKeywords, ParamSlot.keywordParam?]
      optionalKeywords := by simp [Params.add, h.optionalKeywords, ParamSlot.keywordParam?]
      restKeywords := by simp [Params.add, h.restKeywords, ParamSlot.restKeywords?]
      names := by simpa [ParamSlot.keyword?] using hnames }

theorem Holds.restKeyword {named : List ParamSlot} (h : ps.Holds named)
    (hrest : ps.restKeywords = none) (p : Param) :
    (ps.add (.restKeywords p)).Holds (named ++ [.restKeywords p]) where
  behindRest := h.behindRest
  isNamed := forall_mem_snoc h.isNamed rfl
  requiredKeywords := by simp [Params.add, h.requiredKeywords, ParamSlot.keywordParam?]
  optionalKeywords := by simp [Params.add, h.optionalKeywords, ParamSlot.keywordParam?]
  restKeywords := by
    rw [List.filterMap_append, ← h.restKeywords, hrest]
    rfl
  names := by simpa [ParamSlot.keyword?] using h.names

end Params

/-- What one entry preserves. -/
theorem MayFollow.holds {slot : ParamSlot} {next : Stage} {named : List ParamSlot}
    (h : MayFollow stage ps slot next) (hps : ps.Holds named) (hstage : stage.Allows ps named) :
    ∃ more, (ps.add slot).Holds more ∧ next.Allows (ps.add slot) more ∧
      (ps.add slot).positional ++ more = ps.positional ++ named ++ [slot] := by
  cases h with
  | required =>
    obtain ⟨hoptional, hrest, htrailing, rfl⟩ := hstage
    refine ⟨[], { hps with }, ⟨hoptional, hrest, htrailing, rfl⟩, ?_⟩
    simp [Params.positional, Params.add, hoptional, hrest, htrailing]
  | optional hearly =>
    obtain ⟨hrest, htrailing, rfl⟩ : ps.rest = none ∧ ps.trailing = [] ∧ named = [] := by
      obtain rfl | rfl := hearly
      · exact hstage.2
      · exact hstage
    refine ⟨[], { hps with }, ⟨hrest, htrailing, rfl⟩, ?_⟩
    simp [Params.positional, Params.add, hrest, htrailing]
  | rest hearly =>
    obtain ⟨hrest, htrailing, rfl⟩ : ps.rest = none ∧ ps.trailing = [] ∧ named = [] := by
      obtain rfl | rfl := hearly
      · exact hstage.2
      · exact hstage
    refine ⟨[], { hps with behindRest := fun _ => rfl }, ⟨rfl, rfl⟩, ?_⟩
    simp [Params.positional, Params.add, hrest, htrailing]
  | trailing =>
    obtain ⟨hrest, rfl⟩ := hstage
    refine ⟨[], { hps with behindRest := fun _ => hrest }, ⟨hrest, rfl⟩, ?_⟩
    simp [Params.positional, Params.add]
  | @keyword _ _ name maybe p hname =>
    refine ⟨_, hps.keyword hname maybe p, trivial, ?_⟩
    cases maybe <;> simp [Params.positional, Params.add]
  | @restKeywords _ _ p hrest =>
    refine ⟨_, hps.restKeyword hrest p, trivial, ?_⟩
    simp [Params.positional, Params.add]

/-- What a whole list of entries preserves. -/
theorem Fills.holds {slots named : List ParamSlot} {qs : Params} (h : Fills stage ps slots qs)
    (hps : ps.Holds named) (hstage : stage.Allows ps named) :
    ∃ more, qs.Holds more ∧ qs.positional ++ more = ps.positional ++ named ++ slots := by
  induction h generalizing named with
  | nil => exact ⟨named, hps, by simp⟩
  | cons hfollows _ ih =>
    obtain ⟨more, hholds, hallows, heq⟩ := hfollows.holds hps hstage
    obtain ⟨rest, hrest, heq'⟩ := ih hholds hallows
    refine ⟨rest, hrest, ?_⟩
    rw [heq', heq, List.append_assoc, List.singleton_append]

/-- A parameter list that is read, between its parentheses: each entry is stored once and in its
order, the positional ones in front of the named ones. -/
theorem paramList_ordered (h : Covers c n (param type) P) (fuel : Nat) (hs : s.tokens.length ≤ n) :
    Passes c s (paramList type fuel) fun w ps =>
      w = [] ∧ ps = .empty ∨ ∃ opening v closing slots named,
        w = opening :: v ++ [closing] ∧ opening.lexeme = .mark .lparen ∧
        closing.lexeme = .mark .rparen ∧ Listed P v slots ∧
        slots = ps.positional ++ named ∧ ps.Holds named := by
  unfold paramList
  refine .eat_next (fun t s₁ ht h₁ => ?_) (.pure ⟨[], .refl s, .inl ⟨rfl, rfl⟩⟩)
  have := h₁.length
  refine (params_listed h fuel (by omega)).bind ?_
  rintro ps s₂ ⟨w₂, h₂, slots, hslots, hfills⟩
  refine .expect_next fun u s₃ hu h₃ => .pure ⟨_, (h₁.trans h₂).trans h₃, .inr ?_⟩
  obtain ⟨named, hholds, heq⟩ := hfills.holds .empty ⟨rfl, rfl, rfl, rfl⟩
  have hall : slots = ps.positional ++ named := by
    simpa [Params.positional, Params.empty] using heq.symm
  exact ⟨t, w₂, u, slots, named, rfl, ht, hu, hslots, hall, hholds⟩

/-- The parameter lists of signature files are ordered, and each parameter has its place from its
tokens. -/
theorem typeParamList_ordered {scope : List String} (hfuel : 4 * s.tokens.length + 4 ≤ fuel) :
    Passes c s (paramList (Grammar.type fuel scope) fuel) fun w ps =>
      w = [] ∧ ps = .empty ∨ ∃ opening v closing slots named,
        w = opening :: v ++ [closing] ∧ opening.lexeme = .mark .lparen ∧
        closing.lexeme = .mark .rparen ∧
        Listed (fun w p => Outline.Placed w (paramOutline p)) v slots ∧
        slots = ps.positional ++ named ∧ ps.Holds named :=
  paramList_ordered (param_covers ((types_placed c fuel scope).type s.tokens.length hfuel)) fuel
    (Nat.le_refl _)

/-- Keywords are read behind `**` too. -/
example : (Root.read "class A\n  def m: (**X, a: Y) -> void\nend\n").result.toOption.isSome =
    true := by
  decide +kernel

/-- A named entry that is no keyword stands for the rest of them. -/
theorem ParamSlot.keyword_of_isNamed {s : ParamSlot} (h : s.isNamed = true)
    (hrest : s.restKeywords? = none) : s.keyword?.isSome = true := by
  cases s with
  | keyword => rfl
  | restKeywords => cases hrest
  | _ => cases h

/-- Where no keyword stands behind `**`, nothing does. -/
theorem Params.Holds.rest_last {named : List ParamSlot} (h : ps.Holds named)
    (hlast : ∀ p front back, named = front ++ .restKeywords p :: back →
      ∀ s ∈ back, s.keyword? = none) :
    ∃ keywords, named = keywords ++ ps.restKeywords.toList.map .restKeywords ∧
      ∀ s ∈ keywords, s.keyword?.isSome = true := by
  have hrest := h.restKeywords
  have hisNamed := h.isNamed
  cases hps : ps.restKeywords with
  | none =>
    rw [hps] at hrest
    refine ⟨named, (List.append_nil named).symm, ?_⟩
    intro s hs
    exact ParamSlot.keyword_of_isNamed (hisNamed s hs)
      (List.filterMap_eq_nil_iff.mp hrest.symm s hs)
  | some p =>
    rw [hps] at hrest
    obtain ⟨front, slot, back, rfl, hfront, hslot, hback⟩ :=
      List.filterMap_eq_cons_iff.mp hrest.symm
    obtain rfl : slot = .restKeywords p := by
      cases slot <;> cases hslot
      rfl
    obtain rfl : back = [] := by
      cases back with
      | nil => rfl
      | cons s back =>
        have hs := ParamSlot.keyword_of_isNamed (hisNamed s (by simp))
          (List.filterMap_eq_nil_iff.mp hback s List.mem_cons_self)
        rw [hlast p front (s :: back) rfl s List.mem_cons_self] at hs
        cases hs
    refine ⟨front, rfl, ?_⟩
    intro s hs
    exact ParamSlot.keyword_of_isNamed (hisNamed s (List.mem_append_left _ hs)) (hfront s hs)

end RubySig.Grammar
