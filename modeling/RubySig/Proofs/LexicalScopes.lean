import RubySig.Proofs.Tree.DeclarationSites
import RubySig.Proofs.Tree.ScopeStack

/-!
Type variables are resolved lexically: a name of one constant is a type variable exactly where a
list of type parameters around it declares that name, and a class elsewhere.
-/
namespace RubySig

/-- The name of a type is one token, a constant: no `::` stands in it. -/
def Ty.WrittenBare (tokens : List Token) (t : Ty) (n : String) : Prop :=
  ∃ u ∈ tokens, u.lexeme = .constant n ∧ t.namePlace = some (.between u.start u.stop)

/-- One of two tokens stands before the other. -/
def Token.Apart (t u : Token) : Prop := t.range.Before u.range ∨ u.range.Before t.range

instance : Std.Symm Token.Apart := ⟨fun _ _ => Or.symm⟩

namespace Lexer.Scan.Tiles

variable {text : List Char} {scan : Scan} {t u : Token}

theorem token_nonempty (h : scan.Tiles text 0) (ht : t ∈ scan.tokens) :
    t.start.offset < t.stop.offset :=
  (h.spread.stands _ (List.mem_append_left _ (List.mem_map_of_mem ht))).nonempty

theorem eq_of_start (h : scan.Tiles text 0) (ht : t ∈ scan.tokens) (hu : u ∈ scan.tokens)
    (hstart : t.start.offset = u.start.offset) : t = u := by
  by_contra hne
  have hpairs : scan.tokens.Pairwise Token.Apart := (List.pairwise_map.mp h.tokens).imp .inl
  have hapart : t.stop.offset ≤ u.start.offset ∨ u.stop.offset ≤ t.start.offset :=
    hpairs.forall ht hu hne
  have := h.token_nonempty ht
  have := h.token_nonempty hu
  omega

/-- Tokens that reach from the start of one token to its end are that token alone. -/
theorem eq_of_cover (h : scan.Tiles text 0) {v : List Token} (hv : v <:+: scan.tokens)
    (hu : u ∈ scan.tokens) (hcover : Token.cover v = some (.between u.start u.stop)) : v = [u] := by
  cases v with
  | nil => cases hcover
  | cons t ts =>
    have ht : t ∈ scan.tokens := hv.subset List.mem_cons_self
    simp only [Token.cover, Span.between, Option.some.injEq, Span.mk.injEq,
      Int.natCast_inj] at hcover
    obtain ⟨-, -, -, -, hstart, hstop⟩ := hcover
    obtain rfl := h.eq_of_start ht hu hstart
    cases ts with
    | nil => rfl
    | cons t' ts =>
      have hlast : (t' :: ts).getLastD t ∈ t' :: ts := by
        rw [List.getLastD_eq_getLast?, List.getLast?_eq_some_getLast (List.cons_ne_nil t' ts)]
        exact List.getLast_mem _
      have hbehind := List.pairwise_cons.mp ((List.pairwise_map.mp h.tokens).sublist hv.sublist)
      have : t.stop.offset ≤ ((t' :: ts).getLastD t).start.offset := hbehind.1 _ hlast
      have := h.token_nonempty (hv.subset (List.mem_cons_of_mem t hlast))
      omega

end Lexer.Scan.Tiles

theorem Ty.Resolved.written {text : List Char} {scan : Lexer.Scan} (h : scan.Tiles text 0)
    {v : List Token} {scopes : List (List String)} {t : Ty} (ht : t.Resolved v scopes)
    (hv : v <:+: scan.tokens) (n : String) :
    v.map (·.lexeme) = [.constant n] ↔ t.WrittenBare scan.tokens n := by
  constructor
  · intro hlexeme
    obtain ⟨u, rfl, hu⟩ := List.map_eq_singleton_iff.mp hlexeme
    exact ⟨u, hv.subset List.mem_cons_self, hu, ht.place⟩
  · rintro ⟨u, hu, hlexeme, hplace⟩
    rw [h.eq_of_cover hv hu (ht.place.symm.trans hplace), List.map_singleton, hlexeme]

/-- In every text that can be read, a type is a type variable where it is written as a bare name
that a list of type parameters around it declares, and a class without a namespace where it is
written as another bare name. The scopes are kept by each production. -/
theorem type_variables_lexical {source : String} {root : Root}
    (h : (Root.read source).result = .ok root) :
    (∃ scan, Lexer.scan source.toList = .ok scan ∧
      ∀ scopes t, Site.type scopes t ∈ root.sites → ∀ n,
        (t.variableName? = some n ↔ t.WrittenBare scan.tokens n ∧ n ∈ scopes.flatten) ∧
        (t.bareName? = some n ↔ t.WrittenBare scan.tokens n ∧ n ∉ scopes.flatten)) ∧
    Grammar.StackKept := by
  obtain ⟨scan, hscan, haccounted⟩ := Root.read_sites h
  have htiles : scan.Tiles source.toList 0 :=
    Lexer.scanFrom_tiles _ (.start source.toList) [] (Nat.le_refl _) rfl hscan
  refine ⟨⟨scan, hscan, fun scopes t hsite n => ?_⟩, Grammar.stack_kept⟩
  obtain ⟨v, -, hv, ht⟩ := haccounted.resolved scopes t hsite
  have hwritten := ht.written htiles hv n
  rw [← hwritten]
  exact ⟨ht.variable_iff n, ht.class_iff n⟩

/-- The names at the sites of types: type variables, and classes without a namespace. -/
def Root.bareNames (root : Root) : List (String ⊕ String) :=
  root.sites.filterMap fun
    | .type _ t => (t.variableName?.map .inl).or (t.bareName?.map .inr)
    | .key _ _ => none

/-- Bounds that see their own parameter and those before it, a superclass that sees all, type
parameters of a method inside those of a class, and names behind the scopes that declare them. -/
def scopedSource : String :=
  "class A[T, U < B[T, U, V], V] < C[U]
  def f: [W < T] (W, ::T) -> U | () -> W
end
" ++
    "type a[V] = [T, V]
"

theorem type_variables_lexical_sample : ∃ root, (Root.read scopedSource).result = .ok root ∧
    root.bareNames = [.inr "B", .inl "T", .inl "U", .inr "V", .inl "U", .inl "T", .inl "W",
      .inl "U", .inr "W",
      .inr "T", .inl "V"] ∧
    ∃ scan, Lexer.scan scopedSource.toList = .ok scan ∧
      ∀ scopes t, Site.type scopes t ∈ root.sites → ∀ n,
        (t.variableName? = some n ↔ t.WrittenBare scan.tokens n ∧ n ∈ scopes.flatten) ∧
        (t.bareName? = some n ↔ t.WrittenBare scan.tokens n ∧ n ∉ scopes.flatten) := by
  have hread : (Root.read scopedSource).result.toOption.map Root.bareNames =
      some [.inr "B", .inl "T", .inl "U", .inr "V", .inl "U", .inl "T", .inl "W",
        .inl "U", .inr "W",
        .inr "T", .inl "V"] := by
    decide +kernel
  cases h : (Root.read scopedSource).result with
  | error e =>
    rw [h] at hread
    cases hread
  | ok root =>
    rw [h] at hread
    exact ⟨root, rfl, Option.some.inj hread, (type_variables_lexical h).1⟩

end RubySig
