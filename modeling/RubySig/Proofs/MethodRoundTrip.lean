import RubySig.Proofs.RoundTrip

/-! A method that is printed in a class is read back, with its nested unions spliced. -/
namespace RubySig

namespace Grammar

def methodItem (lead : Lead) (name : String) (os : List Overload) (level : MethodLevel)
    (overloading : Bool) (visibility : Option Visibility) : Item :=
  .member none lead (.method name os level overloading visibility)

/-- The class `name` with one method. -/
def methodClass (name : TypeName) (item : Item) : Declaration := .class_ name [] none [item]

end Grammar

open Grammar (methodClass methodItem)

/-- The file that declares a class with one method and nothing else. -/
def Root.ofMethod (className : TypeName) (lead : Lead) (name : String) (overloads : List Overload)
    (level : MethodLevel) (overloading : Bool) (visibility : Option Visibility) : Root :=
  ⟨none, [.declaration none .none (methodClass className
    (methodItem lead name overloads level overloading visibility))]⟩

variable {className : TypeName} {lead : Lead} {name : String} {os : List Overload}
  {level : MethodLevel}
  {overloading : Bool} {visibility : Option Visibility}

theorem ofMethod_formed {source : List Char} (hc : className.Formed .constant)
    (hl : ∀ n ∈ lead.notes, n.Formed) (hn : CallableName name) (ho : ∀ o ∈ os, o.Formed [] source)
    (hne : os ≠ [] ∨ overloading = true) :
    (Root.ofMethod className lead name os level overloading visibility).Formed source := by
  have hentries : ∀ o ∈ os, o.Written [] source :=
    fun o hm => ⟨fun n hn => .inl ((ho o hm).notes n hn), (ho o hm).method⟩
  have hmethod : Member.Formed true [] source (.method name os level overloading visibility) :=
    ⟨hn.written, hentries, hne⟩
  refine List.forall_mem_singleton.mpr ⟨by simp [Lead.none, Lead.Formed], hc, trivial, by simp, ?_⟩
  exact ⟨⟨fun n hn => .inl (hl n hn), hmethod⟩, trivial⟩

theorem ofMethod_unambiguous {d : Format.Context} (hn : CallableName name)
    (hs : ∀ o ∈ os, o.method.passes .symbolFree = true) (hne : os ≠ [] ∨ overloading = true) :
    (Root.ofMethod className lead name os level overloading visibility).Unambiguous d := by
  have hentry : (!os.isEmpty || overloading) = true := by simpa using hne
  have passes {k : Check} (hk : ∀ o ∈ os, o.method.passes k = true) :
      Item.allPass k
        (Root.ofMethod className lead name os level overloading visibility).declarations =
        true := by
    have hall : os.all (·.method.passes k) = true := List.all_eq_true.mpr hk
    simp [Root.ofMethod, methodClass, methodItem, Item.allPass, Item.passes, Declaration.passes,
      Member.passes, hentry, hall]
  have hquote : isLoneQuote name = false := by simpa [isLoneQuote] using hn.notQuote
  refine ⟨passes fun o hm => (MethodType.passes_of_symbolFree (hs o hm)).1,
    passes fun o hm => (MethodType.passes_of_symbolFree (hs o hm)).2, ?_⟩
  simp [Root.ofMethod, methodClass, methodItem, Item.allApart, Item.isApart, Declaration.isApart,
    Item.startsAbsolute, Member.isApart, hquote]

/-- A method of any level and visibility, whose signatures are of shapes that the grammar builds and
without symbols, is printed in a class for every width and indentation as a text that is read back
as the method, nested unions spliced. -/
theorem method_round_trip (settings : Settings) (source : String) (className : TypeName)
    (lead : Lead) (name : String) (os : List Overload) (level : MethodLevel) (overloading : Bool)
    (visibility : Option Visibility) (hc : className.Formed .constant)
    (hl : ∀ n ∈ lead.notes, n.Formed) (hn : CallableName name)
    (ho : ∀ o ∈ os, o.Formed [] source.toList) (hs : ∀ o ∈ os, o.method.passes .symbolFree = true)
    (hne : os ≠ [] ∨ overloading = true) :
    ∃ root,
    (Root.read ((Root.ofMethod className lead name os level overloading visibility).formatted
        settings source)).result = .ok root ∧
      root.plain = (Root.ofMethod className lead name os level overloading visibility).plain :=
  Root.round_trip settings source _ (ofMethod_formed hc hl hn ho hne)
    (ofMethod_unambiguous hn hs hne)

/-- `%a{pure} [unchecked out T < Array[T], U] (T x) ?{ (U) -> void } -> (T | "b"?)` -/
def sampleOverload : Overload where
  location := none
  notes := [⟨"pure", none⟩]
  method :=
    { location := none
      signature :=
        ⟨none, .union none [.variable none "T", .optional none (.literal none (.string "b"))],
        [⟨none, .variable none "T", some "x"⟩], [], none, [], [], [], none⟩
      params := [⟨none, "T", .covariant, true, some (.classInstance none ⟨none, "Array", [], false⟩
        [.variable none "T"])⟩, ⟨none, "U", .invariant, false, none⟩]
      block :=
        some ⟨none, ⟨none, .base none .void, [⟨none, .variable none "U", none⟩], [], none, [], [],
        [], none⟩, false⟩ }

theorem readsAs_of_scan {s : String} {l : Lexeme} (h : (match Lexer.scan s.toList with
    | .ok scan => scan.tokens.map (·.lexeme) == [l]
    | .error _ => false) = true) : Lexer.ReadsAs s l := by
  split at h
  case _ scan hs => exact ⟨scan, hs, by simpa using h⟩
  case _ => cases h

theorem sampleOverload_formed : sampleOverload.Formed [] [] := by
  have hT : Lexer.ReadsAs "T" (.constant "T") := readsAs_of_scan (by decide)
  have hU : Lexer.ReadsAs "U" (.constant "U") := readsAs_of_scan (by decide)
  have hArray : TypeName.Formed .constant ⟨none, "Array", [], false⟩ :=
    ⟨by simp, readsAs_of_scan (by decide)⟩
  have hx : ∀ s ∈ some "x", Nameable s := by
    rintro s ⟨⟩
    exact ⟨by decide, by decide, by decide⟩
  refine ⟨?_, ?_, ?_, ?_⟩
  · exact List.forall_mem_singleton.mpr ⟨rfl, by decide, by decide, by decide⟩
  · refine ⟨hT, ?_, hU, by simp, trivial⟩
    rintro t ⟨⟩
    exact ⟨hArray, by decide, ⟨hT, by decide⟩, trivial⟩
  · refine ⟨⟨fun _ => rfl, by decide⟩, ⟨by decide, ⟨hT, by decide⟩, ?_, trivial⟩,
      ⟨⟨⟨hT, by decide⟩, hx⟩, trivial⟩, trivial, trivial, trivial, trivial, trivial, trivial⟩
    simp [Ty.Formed, Literal.Formed]
  · exact ⟨⟨fun _ => rfl, by decide⟩, trivial, ⟨⟨⟨hU, by decide⟩, by simp⟩, trivial⟩,
      trivial, trivial,
      trivial, trivial, trivial, trivial⟩

theorem method_round_trip_sample :
    CallableName "[]=" ∧ sampleOverload.Formed [] [] ∧
      sampleOverload.method.passes .symbolFree = true ∧
      ∃ root, (Root.read ((Root.ofMethod ⟨none, "C", ["A"], true⟩ ⟨none, [⟨"final", none⟩]⟩ "[]="
          [sampleOverload, sampleOverload] .both true (some .private_)).formatted
            .standard "")).result =
            .ok root ∧
        root.plain = (Root.ofMethod ⟨none, "C", ["A"], true⟩ ⟨none, [⟨"final", none⟩]⟩ "[]="
          [sampleOverload, sampleOverload] .both true (some .private_)).plain := by
  have hclass : TypeName.Formed .constant ⟨none, "C", ["A"], true⟩ :=
    ⟨List.forall_mem_singleton.mpr (readsAs_of_scan (by decide)), readsAs_of_scan (by decide)⟩
  have hnote : ∀ n ∈ [(⟨"final", none⟩ : Note)], n.Formed :=
    List.forall_mem_singleton.mpr ⟨rfl, by decide, by decide, by decide⟩
  have hname : CallableName "[]=" := ⟨.inl (by decide), by decide⟩
  have hfree : sampleOverload.method.passes .symbolFree = true := by decide
  have hall {P : Overload → Prop} (h : P sampleOverload) :
      ∀ o ∈ [sampleOverload, sampleOverload], P o :=
    List.forall_mem_cons.mpr ⟨h, List.forall_mem_singleton.mpr h⟩
  exact ⟨hname, sampleOverload_formed, hfree,
    method_round_trip .standard "" _ ⟨none, [⟨"final", none⟩]⟩ "[]="
    [sampleOverload, sampleOverload] .both true (some .private_) hclass hnote hname
    (hall sampleOverload_formed) (hall hfree) (.inl (by simp))⟩

end RubySig
