import RubySig.Outline.Data
import RubySig.Outline.Form
import RubySig.Outline.Walk
import RubySig.Proofs.Outline.Admits

/-! Admitted outlines are dumped as data and as forms, and their nodes are counted. -/
namespace RubySig.Outline

section Succeeds

variable {α β : Type} {x : Except TreeFault α} {f : α → Except TreeFault β}

def Succeeds (x : Except TreeFault α) : Prop := ∃ a, x = .ok a

theorem Succeeds.pure (a : α) : Succeeds (Pure.pure a) := ⟨a, rfl⟩

theorem Succeeds.bind (h : Succeeds x) (k : ∀ a, Succeeds (f a)) : Succeeds (x >>= f) := by
  obtain ⟨a, rfl⟩ := h
  exact k a

theorem Succeeds.map {g : α → β} (h : Succeeds x) : Succeeds (g <$> x) := by
  obtain ⟨a, rfl⟩ := h
  exact ⟨g a, rfl⟩

theorem Succeeds.mapM {g : β → Except TreeFault α} {bs : List β} (h : ∀ b ∈ bs, Succeeds (g b)) :
    Succeeds (bs.mapM g) := by
  induction bs with
  | nil => exact .pure []
  | cons b bs ih =>
    rw [List.mapM_cons]
    exact (h b (List.mem_cons_self ..)).bind fun a =>
      (ih fun c hc => h c (List.mem_cons_of_mem _ hc)).bind fun as => .pure _

end Succeeds

theorem not_abstract {kind : NodeKind} {fields : List (String × Outline)}
    (h : kind.admits fields = true) : kind.isAbstract = false := by
  cases kind <;> first | rfl | cases h

theorem text_of_isText {o : Outline} (h : o.isText = true) : ∃ s, o = .str s := by
  unfold isText at h
  split at h
  case _ s => exact ⟨s, rfl⟩
  case _ => cases h

theorem itemTexts_ok {os : List Outline} (h : os.all isText = true) : Succeeds (itemTexts os) := by
  induction os with
  | nil => exact ⟨[], rfl⟩
  | cons o os ih =>
    obtain ⟨ho, hos⟩ := Bool.and_eq_true_iff.mp h
    obtain ⟨s, rfl⟩ := text_of_isText ho
    exact (ih hos).bind fun texts => .pure _

theorem nameText_ok {fields : List (String × Outline)} (h : isName fields = true) :
    Succeeds (nameText fields) := by
  unfold isName at h
  split at h
  case _ name _ path _ =>
    obtain ⟨hname, hpath⟩ := Bool.and_eq_true_iff.mp h
    obtain ⟨s, rfl⟩ := text_of_isText hname
    exact (itemTexts_ok hpath).bind fun segments => .pure _
  case _ => cases h

variable (locations : Bool)

mutual

theorem datum_ok : (o : Outline) → o.isAdmitted = true → Succeeds (datum locations o)
  | .scalar _, _ | .choice _, _ | .notes _, _ => ⟨_, rfl⟩
  | .list items, h => (itemData_ok items h).bind fun data => .pure _
  | .table entries, h => (entryData_ok entries h).bind fun data => .pure _
  | .node kind l lead fields, h => by
    obtain ⟨hkind, hfields⟩ := Bool.and_eq_true_iff.mp h
    have hname : Succeeds (fullNameEntry kind fields) := by
      unfold fullNameEntry
      split
      case isTrue ht =>
        rw [eq_of_beq ht] at hkind
        exact (nameText_ok hkind).bind fun s => .pure _
      case isFalse => exact ⟨[], rfl⟩
    rw [datum, not_abstract hkind]
    exact (fieldData_ok fields hfields).bind fun own => hname.bind fun full => .pure _

theorem itemData_ok :
    (os : List Outline) → itemsAdmitted os = true → Succeeds (itemData locations os)
  | [], _ => ⟨[], rfl⟩
  | o :: os, h => by
    obtain ⟨ho, hos⟩ := Bool.and_eq_true_iff.mp h
    exact (datum_ok o ho).bind fun first => (itemData_ok os hos).bind fun rest => .pure _

theorem entryData_ok : (fields : List (String × Outline)) → fieldsAdmitted fields = true →
    Succeeds (entryData locations fields)
  | [], _ => ⟨[], rfl⟩
  | (name, o) :: fields, h => by
    obtain ⟨ho, hfields⟩ := Bool.and_eq_true_iff.mp h
    exact (datum_ok o ho).bind fun first => (entryData_ok fields hfields).bind fun rest => .pure _

theorem fieldData_ok : (fields : List (String × Outline)) → fieldsAdmitted fields = true →
    Succeeds (fieldData locations fields)
  | [], _ => ⟨[], rfl⟩
  | (name, o) :: fields, h => by
    obtain ⟨ho, hfields⟩ := Bool.and_eq_true_iff.mp h
    have hrest := fieldData_ok fields hfields
    rw [fieldData]
    split
    · exact hrest
    · exact (datum_ok o ho).bind fun first => hrest.bind fun rest => .pure _

end

variable (stop : NodeKind → Bool)

mutual

theorem visitsBelow_ok : (opened : Bool) → (o : Outline) → o.isAdmitted = true →
    Succeeds (visitsBelow stop opened o)
  | _, .scalar _, _ | _, .choice _, _ | _, .notes _, _ => ⟨[], rfl⟩
  | opened, .list items, h => by
    rw [visitsBelow]
    split
    · exact visitsInItems_ok items h
    · exact ⟨[], rfl⟩
  | opened, .table entries, h => by
    rw [visitsBelow]
    split
    · exact visitsInFields_ok false entries h
    · exact ⟨[], rfl⟩
  | opened, .node kind l lead fields, h => by
    obtain ⟨hkind, hfields⟩ := Bool.and_eq_true_iff.mp h
    rw [visitsBelow, not_abstract hkind]
    by_cases hstop : stop kind = true
    · rw [if_pos hstop]
      exact ⟨_, rfl⟩
    · rw [if_neg hstop]
      exact (visitsInFields_ok true fields hfields).bind fun visits => .pure _

theorem visitsInItems_ok : (os : List Outline) → itemsAdmitted os = true →
    Succeeds (visitsInItems stop os)
  | [], _ => ⟨[], rfl⟩
  | o :: os, h => by
    obtain ⟨ho, hos⟩ := Bool.and_eq_true_iff.mp h
    exact (visitsBelow_ok false o ho).bind fun first =>
      (visitsInItems_ok os hos).bind fun rest => .pure _

theorem visitsInFields_ok : (opened : Bool) → (fields : List (String × Outline)) →
    fieldsAdmitted fields = true → Succeeds (visitsInFields stop opened fields)
  | _, [], _ => ⟨[], rfl⟩
  | opened, (name, o) :: fields, h => by
    obtain ⟨ho, hfields⟩ := Bool.and_eq_true_iff.mp h
    exact (visitsBelow_ok opened o ho).bind fun first =>
      (visitsInFields_ok opened fields hfields).bind fun rest => .pure _

end

theorem counts_ok {o : Outline} (hnode : o.isNode = true) (h : o.isAdmitted = true) :
    Succeeds o.counts := by
  refine Succeeds.bind ?_ fun visits => .pure _
  rw [visits, if_pos hnode]
  exact visitsBelow_ok _ false o h

theorem record_ok {o : Outline} (hnode : o.isNode = true) (h : o.isAdmitted = true) :
    Succeeds (o.record locations) := by
  rw [record, if_pos hnode]
  exact datum_ok locations o h

section Flags

variable {fields : List (String × Outline)} {name : String}

theorem holds_iff {p : Outline → Bool} :
    holds fields name p = true ↔ ∃ o, field? fields name = some o ∧ p o = true := by
  unfold holds
  cases field? fields name <;> simp

theorem wordIn_ok {p : Outline → Bool} (hp : ∀ o, p o = true → o.isWord = true)
    (h : holds fields name p = true) : Succeeds (wordIn fields name) := by
  obtain ⟨o, hf, ho⟩ := holds_iff.mp h
  unfold wordIn
  rw [hf]
  have hword := hp o ho
  cases o with
  | choice word => exact ⟨word, rfl⟩
  | _ => cases hword

theorem isWord_of_level (o : Outline) (h : o.isMemberLevel = true) : o.isWord = true := by
  cases o with
  | choice word => rfl
  | _ => cases h

theorem isWord_of_agrees {value : Outline} (o : Outline) (h : agrees o value = true) :
    o.isWord = true := by
  cases o with
  | choice word => rfl
  | _ => cases h

theorem memberFlags_ok (hlevel : Succeeds (wordIn fields "kind"))
    (hshown : holds fields "visibility" isVisibility = true) : Succeeds (memberFlags fields) := by
  obtain ⟨o, hf, ho⟩ := holds_iff.mp hshown
  unfold memberFlags wordIn
  rw [hf]
  refine hlevel.bind fun level => ?_
  cases o with
  | choice word => exact .pure _
  | scalar x =>
    cases x with
    | null => exact .pure _
    | _ => cases ho
  | _ => cases ho

theorem flags_ok {kind : NodeKind} (h : kind.admits fields = true) :
    Succeeds (flags kind fields) := by
  have hword : ∀ o : Outline, o.isWord = true → o.isWord = true := fun _ h => h
  have hmember (h : (holds fields "kind" isMemberLevel &&
      holds fields "visibility" isVisibility) = true) : Succeeds (memberFlags fields) := by
    obtain ⟨hlevel, hshown⟩ := Bool.and_eq_true_iff.mp h
    exact memberFlags_ok (wordIn_ok isWord_of_level hlevel) hshown
  unfold flags
  split
  case _ => exact (wordIn_ok hword h).bind fun word => .pure _
  case _ => exact (wordIn_ok isWord_of_level h).map
  case _ => exact hmember h
  case _ => exact hmember h
  case _ => exact hmember h
  case _ =>
    simp only [NodeKind.admits, Bool.and_eq_true] at h
    exact (memberFlags_ok (wordIn_ok hword h.1.2) h.2).bind fun shown => .pure _
  case _ =>
    obtain ⟨o, hf, ho⟩ := holds_iff.mp h
    rw [hf]
    cases o with
    | notes ns => exact .pure _
    | _ => cases ho
  case _ =>
    obtain ⟨o, hf, ho⟩ := holds_iff.mp h
    obtain ⟨value, -, hvalue⟩ := holds_iff.mp ho
    exact (wordIn_ok hword (holds_iff.mpr ⟨o, hf, isWord_of_agrees o hvalue⟩)).map
  case _ => exact ⟨_, rfl⟩
  case _ => exact ⟨_, rfl⟩

end Flags

theorem mem_of_lookup {α : Type} {name : String} {a : α} {entries : List (String × α)}
    (h : entries.lookup name = some a) : (name, a) ∈ entries := by
  induction entries with
  | nil => cases h
  | cons entry entries ih =>
    rw [List.lookup_cons] at h
    split at h
    case _ heq =>
      cases h
      rw [eq_of_beq heq]
      exact List.mem_cons_self ..
    case _ => exact List.mem_cons_of_mem _ (ih h)

theorem chosen_ok {docs : List (String × Bool × Except TreeFault (List Doc))}
    (h : ∀ entry ∈ docs, Succeeds entry.2.2) (order : List String) :
    Succeeds (chosen order docs) := by
  unfold chosen
  refine .mapM fun entry hentry => ?_
  obtain ⟨name, -, hname⟩ := List.mem_filterMap.mp hentry
  split at hname
  case _ value hlookup =>
    cases hname
    exact (h _ (mem_of_lookup hlookup)).bind fun docs => .pure _
  case _ => cases hname

variable (indent : Int)

mutual

theorem formDocs_ok : (o : Outline) → o.isAdmitted = true → Succeeds (formDocs indent o)
  | .scalar _, _ | .choice _, _ | .notes _, _ => ⟨_, rfl⟩
  | .list items, h => (itemForms_ok items h).bind fun forms => .pure _
  | .table entries, h => (entryForms_ok entries h).bind fun forms => .pure _
  | .node kind l lead fields, h => by
    obtain ⟨hkind, hfields⟩ := Bool.and_eq_true_iff.mp h
    have hform (label : String) (order : List String) : Succeeds (do
        let flags ← flags kind fields
        let values ← chosen order (fieldForms indent fields)
        let inside := leadParts indent lead ++ flags.map (fun flag => [.text flag]) ++ values
        return [Doc.grouped [.text ("(" ++ label), .indent indent (parts inside), .text ")"]]) :=
      (flags_ok hkind).bind fun flags =>
        (chosen_ok (fieldForms_ok fields hfields) order).bind fun values => .pure _
    have hword (h : holds fields "kind" isWord = true) : Succeeds (wordIn fields "kind") :=
      wordIn_ok (fun _ h => h) h
    cases kind with
    | declaration => cases hkind
    | member => cases hkind
    | type => cases hkind
    | attributeMember => cases hkind
    | mixinMember => cases hkind
    | typeName => exact (nameText_ok hkind).bind fun s => .pure _
    | baseType => exact (hword hkind).bind fun s => .pure _
    | _ => exact hform _ _

theorem itemForms_ok :
    (os : List Outline) → itemsAdmitted os = true → Succeeds (itemForms indent os)
  | [], _ => ⟨[], rfl⟩
  | o :: os, h => by
    obtain ⟨ho, hos⟩ := Bool.and_eq_true_iff.mp h
    exact (formDocs_ok o ho).bind fun first => (itemForms_ok os hos).bind fun rest => .pure _

theorem entryForms_ok : (fields : List (String × Outline)) → fieldsAdmitted fields = true →
    Succeeds (entryForms indent fields)
  | [], _ => ⟨[], rfl⟩
  | (name, o) :: fields, h => by
    obtain ⟨ho, hfields⟩ := Bool.and_eq_true_iff.mp h
    exact (formDocs_ok o ho).bind fun first =>
      (entryForms_ok fields hfields).bind fun rest => .pure _

theorem fieldForms_ok : (fields : List (String × Outline)) → fieldsAdmitted fields = true →
    ∀ entry ∈ fieldForms indent fields, Succeeds entry.2.2
  | [], _ => by simp [fieldForms]
  | (name, o) :: fields, h => by
    obtain ⟨ho, hfields⟩ := Bool.and_eq_true_iff.mp h
    exact List.forall_mem_cons.mpr ⟨formDocs_ok o ho, fieldForms_ok fields hfields⟩

end

theorem formText_ok (width : Int) {o : Outline} (hnode : o.isNode = true)
    (h : o.isAdmitted = true) : Succeeds (o.formText indent width) := by
  unfold formText
  rw [hnode]
  exact (formDocs_ok indent o h).bind fun docs => .pure _

end RubySig.Outline
