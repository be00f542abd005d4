import RubySig.Proofs.Outline.TyTold

/-!
The data of a declaration tell it up to places: what its members, parameters and types are, and the
texts of the comments and annotations above it.
-/
namespace RubySig

open Outline

variable {order : EntryOrder}

theorem Variance.word_injective {v v' : Variance} (h : v.word = v'.word) : v = v' := by
  revert h
  cases v <;> cases v' <;> decide

theorem MemberLevel.word_injective {v v' : MemberLevel} (h : v.word = v'.word) : v = v' := by
  revert h
  cases v <;> cases v' <;> decide

theorem MethodLevel.word_injective {v v' : MethodLevel} (h : v.word = v'.word) : v = v' := by
  revert h
  cases v <;> cases v' <;> decide

theorem Visibility.text_injective {v v' : Visibility} (h : v.text = v'.text) : v = v' := by
  revert h
  cases v <;> cases v' <;> decide

/-- No backing variable, one of the same name and a named one have different data. -/
theorem Backing.told {b b' : Backing}
    (h : slot order "ivar_name" b.outline = slot order "ivar_name" b'.outline) : b = b' := by
  cases b <;> cases b' <;>
    simp_all [Backing.outline, slot_bool order, slot_str order, Datum.bool, Datum.str]

theorem Visibility.told {v v' : Option Visibility}
    (h : slot order "visibility" (outline? v) = slot order "visibility" (outline? v')) :
    v = v' := by
  cases v with
  | none =>
    cases v' with
    | none => rfl
    | some b => simp [outline?] at h
  | some a =>
    cases v' with
    | none => simp [outline?] at h
    | some b =>
      have htext : a.text = b.text := by simpa [outline?] using h
      rw [text_injective htext]

theorem TypeParam.told (p : TypeParam) :
    Told order TypeParam.outline (fun p => (p.rewrite (.settling order)).bare) p := by
  intro q h
  obtain ⟨hname, hvariance, hunchecked, hbound⟩ :
      p.name = q.name ∧ p.variance.word = q.variance.word ∧
      p.unchecked = q.unchecked ∧
      slot order "upper_bound" ((p.bound.map Ty.outline).getD .null) =
        slot order "upper_bound" ((q.bound.map Ty.outline).getD .null) := by
    simpa using fields_eq h rfl rfl
  have hbound : p.bound.map (Ty.settled order) = q.bound.map (Ty.settled order) :=
    told_option Ty.isNode_outline (fun t _ => t.told) hbound
  simp only [TypeParam.rewrite, TypeParam.bare, Rewriting.settling_type, hname,
    Variance.word_injective hvariance, hunchecked, hbound]

theorem TypeParam.told_list {ps qs : List TypeParam}
    (h : data order (.ofList TypeParam.outline ps) = data order (.ofList TypeParam.outline qs)) :
    (ps.map (TypeParam.rewrite (.settling order))).map TypeParam.bare =
      (qs.map (TypeParam.rewrite (.settling order))).map TypeParam.bare := by
  rw [List.map_map, List.map_map]
  exact RubySig.told_list (fun p _ => p.told) h

theorem ClassRef.told (r : ClassRef) :
    Told order ClassRef.outline (fun r => (r.rewrite (.settling order)).bare) r := by
  intro s h
  have hfields : fieldSlots order
      [("name", r.name.outline), ("args", .list (r.args.map Ty.outline))] =
      fieldSlots order [("name", s.name.outline), ("args", .list (s.args.map Ty.outline))] := by
    rw [← tyOutlines_eq_map, ← tyOutlines_eq_map]
    exact fields_eq h rfl rfl
  obtain ⟨hname, hargs⟩ := TypeName.told_applied (fun t _ => t.told) hfields
  rw [Ty.settledAll_eq_map, Ty.settledAll_eq_map] at hargs
  simp only [ClassRef.rewrite, ClassRef.bare, Rewriting.settling_type, hname, hargs]

theorem ClassRef.told_list {rs ss : List ClassRef}
    (h : data order (.ofList ClassRef.outline rs) = data order (.ofList ClassRef.outline ss)) :
    (rs.map (ClassRef.rewrite (.settling order))).map ClassRef.bare =
      (ss.map (ClassRef.rewrite (.settling order))).map ClassRef.bare := by
  rw [List.map_map, List.map_map]
  exact RubySig.told_list (fun r _ => r.told) h

theorem MethodType.told (m : MethodType) :
    Told order MethodType.outline (fun m => (m.rewrite (.settling order)).bare) m := by
  intro n h
  obtain ⟨hsignature, hparams, hblock⟩ : data order (signatureOutline m.signature) =
      data order (signatureOutline n.signature) ∧
      data order (.ofList TypeParam.outline m.params) =
        data order (.ofList TypeParam.outline n.params) ∧
      slot order "block" ((m.block.map blockOutline).getD .null) =
        slot order "block" ((n.block.map blockOutline).getD .null) := by
    simpa [ofList, blockOutline_option] using fields_eq h rfl rfl
  have hblock : Block.settled order m.block = Block.settled order n.block := by
    rw [Block.settled_eq_map, Block.settled_eq_map]
    exact told_option isNode_block (Block.told_option m.block) hblock
  simp only [MethodType.rewrite, MethodType.bare, Rewriting.settling_signature,
    Rewriting.settling_block,
    TypeParam.told_list hparams, m.signature.told n.signature hsignature, hblock]

theorem MethodType.slot_outline (name : String) (m : MethodType) :
    slot order name m.outline = some (data order m.outline) :=
  slot_node order rfl name

theorem Note.told {ns ms : List Note}
    (h : slot order "annotations" (.notes ns) = slot order "annotations" (.notes ms)) :
    ns.map Note.bare = ms.map Note.bare := by
  cases ns with
  | nil =>
    cases ms with
    | nil => rfl
    | cons m ms => cases h
  | cons n ns =>
    cases ms with
    | nil => cases h
    | cons m ms => exact map_bare_of_noteTexts (Option.some.inj h)

theorem Overload.told (o : Overload) :
    Told order Overload.outline (fun o => (o.rewrite (.settling order)).bare) o := by
  intro p h
  obtain ⟨hmethod, hnotes⟩ : data order o.method.outline = data order p.method.outline ∧
      slot order "annotations" (.notes o.notes) = slot order "annotations" (.notes p.notes) := by
    simpa [MethodType.slot_outline] using fields_eq h rfl rfl
  simp only [Overload.rewrite, Overload.bare, o.method.told p.method hmethod, Note.told hnotes]

theorem Access.kind_injective {a a' : Access} (h : a.kind = a'.kind) : a = a' := by
  revert h
  cases a <;> cases a' <;> decide

theorem VariableKind.kind_injective {k k' : VariableKind} (h : k.kind = k'.kind) : k = k' := by
  revert h
  cases k <;> cases k' <;> decide

theorem MixinKind.kind_injective {k k' : MixinKind} (h : k.kind = k'.kind) : k = k' := by
  revert h
  cases k <;> cases k' <;> decide

theorem Visibility.kind_injective {v v' : Visibility} (h : v.kind = v'.kind) : v = v' := by
  revert h
  cases v <;> cases v' <;> decide

theorem Member.formal (m : Member) (lead : Lead) : Formal m.kind lead m.fields := by
  cases m with
  | «attribute» access => cases access <;> exact ⟨rfl, .inl rfl⟩
  | «variable» kind => cases kind <;> exact ⟨rfl, .inl rfl⟩
  | mixin kind => cases kind <;> exact ⟨rfl, .inl rfl⟩
  | visibility v => cases v <;> exact ⟨rfl, .inl rfl⟩
  | _ => exact ⟨rfl, .inl rfl⟩

theorem fieldKeys_eq {fields fields' : List (String × Outline)}
    (h : fieldSlots order fields = fieldSlots order fields') :
    fields.map (fun f => fieldKey f.1) = fields'.map fun f => fieldKey f.1 := by
  rw [← map_fieldSlots order, h, map_fieldSlots]

/-- The kind of a member and the data of its fields tell it. Members of different constructors have
different fields. -/
theorem Member.told {m n : Member} (hkind : m.kind = n.kind)
    (h : fieldSlots order m.fields = fieldSlots order n.fields) :
    (m.rewrite (.settling order)).bare = (n.rewrite (.settling order)).bare := by
  have hkeys := fieldKeys_eq h
  cases m with
  | «alias» newName oldName level =>
    cases n with
    | «alias» newName' oldName' level' =>
      obtain ⟨hnew, hold, hlevel⟩ :
          newName = newName' ∧ oldName = oldName' ∧ level.word = level'.word := by
        simpa [Member.fields] using h
      rw [hnew, hold, MemberLevel.word_injective hlevel]
    | _ => simp [Member.fields, fieldKey] at hkeys
  | «attribute» access name type backing level v =>
    cases n with
    | «attribute» access' name' type' backing' level' v' =>
      obtain ⟨hname, htype, hbacking, hlevel, hv⟩ : name = name' ∧
          data order type.outline = data order type'.outline ∧
          slot order "ivar_name" backing.outline = slot order "ivar_name" backing'.outline ∧
          level.word = level'.word ∧
          slot order "visibility" (Visibility.outline? v) =
            slot order "visibility" (Visibility.outline? v') := by
        simpa [Member.fields] using h
      simp only [Member.rewrite, Member.bare, Rewriting.settling_type,
        Access.kind_injective hkind, hname,
        type.told type' htype, Backing.told hbacking, MemberLevel.word_injective hlevel,
        Visibility.told hv]
    | _ => simp [Member.fields, fieldKey] at hkeys
  | «variable» kind name type =>
    cases n with
    | «variable» kind' name' type' =>
      obtain ⟨hname, htype⟩ : name = name' ∧ data order type.outline =
          data order type'.outline := by
        simpa [Member.fields] using h
      simp only [Member.rewrite, Member.bare, Rewriting.settling_type,
        VariableKind.kind_injective hkind,
        hname, type.told type' htype]
    | _ => simp [Member.fields, fieldKey] at hkeys
  | mixin kind name args =>
    cases n with
    | mixin kind' name' args' =>
      simp only [Member.fields, tyOutlines_eq_map] at h
      obtain ⟨hname, hargs⟩ := TypeName.told_applied (fun t _ => t.told) h
      rw [Ty.settledAll_eq_map, Ty.settledAll_eq_map] at hargs
      simp only [Member.rewrite, Member.bare, Rewriting.settling_type,
        MixinKind.kind_injective hkind, hname,
        hargs]
    | _ => simp [Member.fields, fieldKey] at hkeys
  | visibility v =>
    cases n with
    | visibility v' => rw [Visibility.kind_injective hkind]
    | _ => simp [Member.fields, fieldKey] at hkeys
  | method name overloads level overloading v =>
    cases n with
    | method name' overloads' level' overloading' v' =>
      obtain ⟨hname, hoverloads, hlevel, hoverloading, hv⟩ : name = name' ∧
          data order (.list (overloads.map Overload.outline)) =
            data order (.list (overloads'.map Overload.outline)) ∧
          level.word = level'.word ∧ overloading = overloading' ∧
          slot order "visibility" (Visibility.outline? v) =
            slot order "visibility" (Visibility.outline? v') := by
        simpa [Member.fields, ofList] using h
      have hoverloads := told_list (fun o _ => o.told) hoverloads
      simp only [Member.rewrite, Member.bare, List.map_map, Function.comp_def, hname, hoverloads,
        MethodLevel.word_injective hlevel, hoverloading, Visibility.told hv]
    | _ => simp [Member.fields, fieldKey] at hkeys

theorem Declaration.formal (d : Declaration) (lead : Lead) : Formal d.kind lead d.fields := by
  cases d <;> exact ⟨by simp only [Declaration.fields]; rfl, .inl rfl⟩

theorem Member.kind_ne (m : Member) (d : Declaration) : m.kind ≠ d.kind := by
  cases m with
  | «attribute» access => cases access <;> cases d <;> nofun
  | «variable» kind => cases kind <;> cases d <;> nofun
  | mixin kind => cases kind <;> cases d <;> nofun
  | visibility v => cases v <;> cases d <;> nofun
  | _ => cases d <;> nofun

theorem Item.settledAll_eq_map (items : List Item) :
    Item.unplacedAll (Item.rewriteAll (.settling order) items) =
      items.map fun item => (item.rewrite (.settling order)).unplaced := by
  induction items with
  | nil => rfl
  | cons item items ih => rw [Item.rewriteAll, Item.unplacedAll, ih, List.map_cons]

@[simp] theorem slot_classRef (name : String) (r : ClassRef) :
    slot order name r.outline = some (data order r.outline) :=
  slot_node order rfl name

mutual

theorem Declaration.told : (d e : Declaration) → d.kind = e.kind →
    fieldSlots order d.fields = fieldSlots order e.fields →
    (d.rewrite (.settling order)).unplaced = (e.rewrite (.settling order)).unplaced
  | .class_ name params superclass members, e, hkind, h => by
    cases e with
    | class_ name' params' superclass' members' =>
      obtain ⟨hname, hparams, hsuper, hmembers⟩ :
          data order name.outline = data order name'.outline ∧
          data order (.ofList TypeParam.outline params) =
            data order (.ofList TypeParam.outline params') ∧
          slot order "super_class" ((superclass.map ClassRef.outline).getD .null) =
            slot order "super_class" ((superclass'.map ClassRef.outline).getD .null) ∧
          data order (.list (members.map Item.outline)) =
            data order (.list (members'.map Item.outline)) := by
        simpa [Declaration.fields, ofList, itemOutlines_eq_map] using h
      have hsuper := told_option (fun _ => rfl) (fun r _ => r.told) hsuper
      simp only [Declaration.rewrite, Declaration.unplaced, Item.settledAll_eq_map, Option.map_map,
        Function.comp_def, name.told name' hname, TypeParam.told_list hparams, hsuper,
        told_list (Item.told_all members) hmembers]
    | _ => cases hkind
  | .module_ name params selfTypes members, e, hkind, h => by
    cases e with
    | module_ name' params' selfTypes' members' =>
      obtain ⟨hname, hparams, hself, hmembers⟩ :
          data order name.outline = data order name'.outline ∧
          data order (.ofList TypeParam.outline params) =
            data order (.ofList TypeParam.outline params') ∧
          data order (.ofList ClassRef.outline selfTypes) =
            data order (.ofList ClassRef.outline selfTypes') ∧
          data order (.list (members.map Item.outline)) =
            data order (.list (members'.map Item.outline)) := by
        simpa [Declaration.fields, ofList, itemOutlines_eq_map] using h
      simp only [Declaration.rewrite, Declaration.unplaced, Item.settledAll_eq_map,
        name.told name' hname,
        TypeParam.told_list hparams, ClassRef.told_list hself,
        told_list (Item.told_all members) hmembers]
    | _ => cases hkind
  | .interface name params members, e, hkind, h => by
    cases e with
    | interface name' params' members' =>
      obtain ⟨hname, hparams, hmembers⟩ : data order name.outline = data order name'.outline ∧
          data order (.ofList TypeParam.outline params) =
            data order (.ofList TypeParam.outline params') ∧
          data order (.list (members.map Item.outline)) =
            data order (.list (members'.map Item.outline)) := by
        simpa [Declaration.fields, ofList, itemOutlines_eq_map] using h
      simp only [Declaration.rewrite, Declaration.unplaced, Item.settledAll_eq_map,
        name.told name' hname,
        TypeParam.told_list hparams, told_list (Item.told_all members) hmembers]
    | _ => cases hkind
  | .constant name type, e, hkind, h => by
    cases e with
    | constant name' type' =>
      obtain ⟨hname, htype⟩ : data order name.outline = data order name'.outline ∧
          data order type.outline = data order type'.outline := by
        simpa [Declaration.fields] using h
      simp only [Declaration.rewrite, Declaration.unplaced, Rewriting.settling_type,
        name.told name' hname,
        type.told type' htype]
    | _ => cases hkind
  | .global name type, e, hkind, h => by
    cases e with
    | global name' type' =>
      obtain ⟨hname, htype⟩ : name = name' ∧ data order type.outline =
          data order type'.outline := by
        simpa [Declaration.fields] using h
      simp only [Declaration.rewrite, Declaration.unplaced, Rewriting.settling_type, hname,
        type.told type' htype]
    | _ => cases hkind
  | .typeAlias name type params, e, hkind, h => by
    cases e with
    | typeAlias name' type' params' =>
      obtain ⟨hname, htype, hparams⟩ : data order name.outline = data order name'.outline ∧
          data order type.outline = data order type'.outline ∧
          data order (.ofList TypeParam.outline params) =
            data order (.ofList TypeParam.outline params') := by
        simpa [Declaration.fields, ofList] using h
      simp only [Declaration.rewrite, Declaration.unplaced, Rewriting.settling_type,
        name.told name' hname,
        type.told type' htype, TypeParam.told_list hparams]
    | _ => cases hkind

theorem Item.told : (i : Item) →
    Told order Item.outline (fun item => (item.rewrite (.settling order)).unplaced) i
  | .member l lead m, j, h => by
    cases j with
    | member l' lead' n =>
      obtain ⟨hkind, hlead, hslots⟩ := node_eq h (m.formal lead) (n.formal lead')
      simp only [Item.rewrite, Item.unplaced, hlead, Member.told hkind hslots]
    | declaration l' lead' e =>
      exact absurd (node_eq h (m.formal lead) (e.formal lead')).1 (m.kind_ne e)
  | .declaration l lead d, j, h => by
    cases j with
    | member l' lead' n =>
      exact absurd (node_eq h (d.formal lead) (n.formal lead')).1.symm (n.kind_ne d)
    | declaration l' lead' e =>
      obtain ⟨hkind, hlead, hslots⟩ := node_eq h (d.formal lead) (e.formal lead')
      simp only [Item.rewrite, Item.unplaced, hlead, Declaration.told d e hkind hslots]

theorem Item.told_all : (items : List Item) →
    ∀ i ∈ items, Told order Item.outline (fun item => (item.rewrite (.settling order)).unplaced) i
  | [] => by simp
  | item :: items => List.forall_mem_cons.mpr ⟨Item.told item, Item.told_all items⟩

end

/-- The data of a tree tell it up to places. -/
theorem Root.told (a : Root) : Told order Root.outline (Root.settled order) a := by
  intro b h
  have hdeclarations : data order (.list (a.declarations.map Item.outline)) =
      data order (.list (b.declarations.map Item.outline)) := by
    simpa [itemOutlines_eq_map] using fields_eq h rfl rfl
  simp only [Root.settled, Root.rewrite, Item.settledAll_eq_map,
    told_list (Item.told_all a.declarations) hdeclarations]

end RubySig
