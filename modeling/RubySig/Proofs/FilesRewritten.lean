import Mathlib.Data.List.Forall2
import Mathlib.Data.List.Perm.Basic
import RubySig.Proofs.Format.WhiteSpace
import RubySig.Proofs.ReportsShown

/-!
Which files formatting changes. What becomes of a file depends on its own text and on the options,
and not on the other files of the command line or on their order.
-/
namespace RubySig

namespace Text

theorem unixLines_no_return (cs : List Char) : '\r' ∉ unixLines cs := by
  intro h
  obtain ⟨c, -, hc⟩ := List.mem_map.mp h
  by_cases hr : c = '\r'
  · subst hr
    cases hc
  · rw [if_neg (by simpa using hr)] at hc
    exact hr hc

theorem unixLines_of_no_return {cs : List Char} (h : '\r' ∉ cs) : unixLines cs = cs := by
  have hjoined : joinLineEnds cs = cs := by
    induction cs with
    | nil => rfl
    | cons c cs ih =>
      obtain ⟨hc, hcs⟩ := not_or.mp (mt List.mem_cons.mpr h)
      rw [joinLineEnds_cons fun hr => absurd hr.symm hc, ih hcs]
  rw [unixLines, hjoined]
  refine (List.map_congr_left fun c hc => ?_).trans (List.map_id _)
  have hne : c ≠ '\r' := fun hr => h (hr ▸ hc)
  rw [if_neg (by simpa using hne)]
  rfl

end Text

namespace Store

variable {store : Store} {path : Path} {text : String}

theorem lookup_rewrite (files : List (Path × String)) (path other : Path) (text : String) :
    (files.map fun (p, old) => if p == path then (p, text) else (p, old)).lookup other =
      if other = path then (files.lookup other).map fun _ => text else files.lookup other := by
  induction files with
  | nil => split <;> rfl
  | cons file files ih =>
    obtain ⟨p, old⟩ := file
    have hfile : (if p == path then (p, text) else (p, old)) =
        (p, if p = path then text else old) := by
      by_cases hp : p = path <;> simp [hp]
    change List.lookup other ((if p == path then (p, text) else (p, old)) :: _) = _
    rw [hfile, List.lookup_cons, List.lookup_cons, ih]
    by_cases ho : other = p
    · subst ho
      by_cases hp : other = path <;> simp [hp]
    · have hne : (other == p) = false := by simpa using ho
      rw [hne]

theorem lookup_isSome {files : List (Path × String)} :
    files.any (·.1 == path) = (files.lookup path).isSome := by
  induction files with
  | nil => rfl
  | cons file files ih =>
    obtain ⟨p, old⟩ := file
    rw [List.any_cons, List.lookup_cons, ih]
    by_cases hp : p = path
    · subst hp
      simp
    · have hfile : (p == path) = false := by simpa using hp
      have hlookup : (path == p) = false := by simpa using Ne.symm hp
      rw [hfile, hlookup, Bool.false_or]

/-- Writing a file changes that file. -/
theorem content_write (store : Store) (path other : Path) (text : String) :
    (store.write path text).content? other =
      if other = path then some text else store.content? other := by
  rw [write, content?]
  split
  case isTrue h =>
    rw [lookup_isSome] at h
    dsimp only
    rw [lookup_rewrite]
    split
    case isTrue ho =>
      subst ho
      obtain ⟨old, hold⟩ := Option.isSome_iff_exists.mp h
      rw [hold]
      rfl
    case isFalse => rfl
  case isFalse h =>
    rw [lookup_isSome, Bool.not_eq_true, Option.isSome_eq_false_iff, Option.isNone_iff_eq_none] at h
    dsimp only
    rw [List.lookup_append]
    by_cases ho : other = path
    · subst ho
      simp [h]
    · have hne : (other == path) = false := by simpa using ho
      rw [if_neg ho, List.lookup_cons, hne, List.lookup_nil, Option.or_none]
      rfl

theorem read_eq_some_iff {old : String} : store.read? path = some old ↔
    ∃ raw, store.content? path = some raw ∧ String.ofList (Text.unixLines raw.toList) = old :=
  Option.map_eq_some_iff

end Store

namespace Command

variable {platform : Platform} {console : Console} {settings : Settings} {options : FormatOptions}
  {store : Store} {path : Path} {s s' : Session} {tally tally' : Tally} {input : Input}
  {inputs : List Input}

/-- Whether files are written. -/
def FormatOptions.rewrites (options : FormatOptions) : Bool :=
  options.write && !options.check && !options.diff

/-- The formatted text of a file, if it is another text than the one it has. -/
def rewritten? (settings : Settings) (store : Store) (path : Path) : Option String := do
  let old ← store.read? path
  let new ← (reformat settings old).toOption
  if new = old then none else some new

/-- Whether a file is no signature file. -/
def isRefused (store : Store) (path : Path) : Bool :=
  ((store.read? path).bind fun old => (Root.read old).result.toOption).isNone

/-- The files that are not formatted. -/
def stale (settings : Settings) (store : Store) (inputs : List Input) : List Input :=
  inputs.filter fun input => (rewritten? settings store input.path).isSome

def staleLine (console : Console) (input : Input) : String :=
  console.message ("would reformat " ++ input.name) ++ "\n"

theorem staleLine_plain (hconsole : console.ShowsPlain)
    (hname : ∀ c ∈ input.name.toList, Message.isPlain c = true) :
    staleLine console input = "would reformat " ++ input.name ++ "\n" := by
  have hplain : ∀ c ∈ ("would reformat " ++ input.name).toList, Message.isPlain c = true := by
    rw [String.toList_append, List.forall_mem_append]
    exact ⟨by decide, hname⟩
  rw [staleLine, hconsole _ hplain]

theorem rewritten_eq_some_iff {new : String} : rewritten? settings store path = some new ↔
    ∃ old, store.read? path = some old ∧ reformat settings old = .ok new ∧ new ≠ old := by
  constructor
  · intro h
    obtain ⟨old, hold, h⟩ := Option.bind_eq_some_iff.mp h
    obtain ⟨text, htext, h⟩ := Option.bind_eq_some_iff.mp h
    split at h
    case isTrue => cases h
    case isFalse hne =>
      cases h
      refine ⟨old, hold, ?_, hne⟩
      cases hformat : reformat settings old with
      | error e =>
        rw [hformat] at htext
        cases htext
      | ok result =>
        rw [hformat] at htext
        cases htext
        rfl
  · rintro ⟨old, hold, hformat, hne⟩
    simp [rewritten?, hold, hformat, hne, Except.toOption]

theorem reformat_eq_ok_iff {old new : String} : reformat settings old = .ok new ↔
    ∃ root, (Root.read old).result = .ok root ∧ root.formatted settings old = new := by
  unfold reformat
  cases (Root.read old).result with
  | error e => simp [Except.map]
  | ok root => simp [Except.map]

/-- A text that is written is not the one that the file has, read with its own line ends. -/
theorem rewritten_ne_content {new : String} (h : rewritten? settings store path = some new) :
    store.content? path ≠ some new := by
  intro hcontent
  obtain ⟨old, hold, hformat, hne⟩ := rewritten_eq_some_iff.mp h
  obtain ⟨raw, hraw, rfl⟩ := Store.read_eq_some_iff.mp hold
  obtain rfl : raw = new := Option.some.inj (hraw.symm.trans hcontent)
  obtain ⟨root, hread, hroot⟩ := reformat_eq_ok_iff.mp hformat
  -- The source has no carriage return, so what is printed from it has none.
  have hreturn : '\r' ∉ raw.toList := by
    intro hmem
    rw [← hroot] at hmem
    obtain hc | hc | hc | hc := root.formatted_native hread settings '\r' hmem
    · cases hc
    · cases hc
    · cases hc
    · rw [String.toList_ofList] at hc
      exact Text.unixLines_no_return _ hc
  rw [Text.unixLines_of_no_return hreturn, String.ofList_toList] at hne
  exact hne rfl

theorem readTree_eq (s : Session) (text : String) :
    ∃ s', readTree s text = (s', (Root.read text).result) ∧ s'.store = s.store ∧
    s'.out = s.out := by
  have hwarnings (ws : List Warning) (s : Session) :
      (ws.foldl (fun s w => s.warn readerName w.message) s).store = s.store ∧
        (ws.foldl (fun s w => s.warn readerName w.message) s).out = s.out := by
    induction ws generalizing s with
    | nil => exact ⟨rfl, rfl⟩
    | cons w ws ih => exact ih _
  obtain ⟨hstore, hout⟩ := hwarnings (Root.read text).warnings s
  unfold readTree
  dsimp only
  cases (Root.read text).result with
  | error e => exact ⟨_, rfl, hstore, hout⟩
  | ok root =>
    refine ⟨_, rfl, ?_, ?_⟩
    · rw [Session.debug]
      split
      · exact hstore
      · exact hstore
    · rw [Session.debug]
      split
      · exact hout
      · exact hout

/-- What formatting files does, from one session to another: each file becomes what its own text
asks for, and no other file changes. -/
structure Effect (console : Console) (settings : Settings) (options : FormatOptions)
    (inputs : List Input) (tally tally' : Tally) (s s' : Session) : Prop where
  content : ∀ input ∈ inputs, s'.store.content? input.path =
    if options.rewrites then (rewritten? settings s.store input.path).or
      (s.store.content? input.path)
    else s.store.content? input.path
  kept : ∀ path, (∀ input ∈ inputs, input.path ≠ path) →
    s'.store.content? path = s.store.content? path
  failed : tally'.failed = (tally.failed || inputs.any fun input => isRefused s.store input.path)
  changed : tally'.changed = tally.changed + (stale settings s.store inputs).length
  named : options.check = true → options.diff = false →
    s'.out = s.out ++ String.join ((stale settings s.store inputs).map (staleLine console))

theorem Effect.nil : Effect console settings options [] tally tally s s where
  content := by simp
  kept _ _ := rfl
  failed := by simp
  changed := rfl
  named _ _ := String.append_empty.symm

/-- A file that is not there for the first one is there for the others. -/
theorem Effect.cons {tally₁ : Tally} {s₁ : Session}
    (hpath : ∀ other ∈ inputs, input.path ≠ other.path)
    (h : Effect console settings options [input] tally tally₁ s s₁)
    (h' : Effect console settings options inputs tally₁ tally' s₁ s') :
    Effect console settings options (input :: inputs) tally tally' s s' := by
  have hcontent : ∀ other ∈ inputs, s₁.store.content? other.path = s.store.content? other.path :=
    fun other hmem => h.kept _ (by simpa using hpath other hmem)
  have hrewritten : ∀ other ∈ inputs,
      rewritten? settings s₁.store other.path = rewritten? settings s.store other.path := by
    intro other hmem
    rw [rewritten?, rewritten?, Store.read?, Store.read?, hcontent other hmem]
  have hrefused : ∀ other ∈ inputs, isRefused s₁.store other.path =
      isRefused s.store other.path := by
    intro other hmem
    rw [isRefused, isRefused, Store.read?, Store.read?, hcontent other hmem]
  have hstale : stale settings s₁.store inputs = stale settings s.store inputs :=
    List.filter_congr fun other hmem => by rw [hrewritten other hmem]
  have hboth : stale settings s.store (input :: inputs) =
      stale settings s.store [input] ++ stale settings s.store inputs :=
        List.filter_append [input] inputs
  refine ⟨?_, ?_, ?_, ?_, ?_⟩
  · refine List.forall_mem_cons.mpr ⟨?_, fun other hmem => ?_⟩
    · rw [h'.kept _ fun other hmem => Ne.symm (hpath other hmem)]
      exact h.content input List.mem_cons_self
    · rw [h'.content other hmem, hrewritten other hmem, hcontent other hmem]
  · intro path hne
    obtain ⟨hinput, hothers⟩ := List.forall_mem_cons.mp hne
    rw [h'.kept path hothers, h.kept path (by simpa using hinput)]
  · have hany : (inputs.any fun input => isRefused s₁.store input.path) =
        inputs.any fun input => isRefused s.store input.path := by
      rw [Bool.eq_iff_iff, List.any_eq_true, List.any_eq_true]
      refine exists_congr fun other => and_congr_right fun hmem => ?_
      rw [hrefused other hmem]
    rw [h'.failed, h.failed, hany]
    simp [Bool.or_assoc]
  · rw [h'.changed, h.changed, hstale, hboth, List.length_append, Nat.add_assoc]
  · intro hcheck hdiff
    rw [h'.named hcheck hdiff, h.named hcheck hdiff, hstale, hboth, List.map_append,
      String.join_append,
      String.append_assoc]

/-- A file that is refused stays as it is. -/
theorem Effect.refused {s₁ : Session} (h : isRefused s.store input.path = true)
    (hstore : s₁.store = s.store) (hout : s₁.out = s.out) :
    Effect console settings options [input] tally { tally with failed := true } s s₁ := by
  have hnone : rewritten? settings s.store input.path = none := by
    by_contra hsome
    obtain ⟨new, hnew⟩ := Option.ne_none_iff_exists'.mp hsome
    obtain ⟨old, hold, hformat, -⟩ := rewritten_eq_some_iff.mp hnew
    obtain ⟨root, hread, -⟩ := reformat_eq_ok_iff.mp hformat
    simp [isRefused, hold, hread, Except.toOption] at h
  refine ⟨?_, ?_, ?_, ?_, ?_⟩
  · simp [hstore, hnone]
  · simp [hstore]
  · simp [h]
  · simp [stale, hnone]
  · simp [stale, hnone, hout]

theorem deliver_same (console : Console) (options : FormatOptions) (s : Session) (input : Input)
    (text : String) :
    (deliver console options s input text text).store = s.store ∧
      (options.check = true → (deliver console options s input text text).out = s.out) := by
  unfold deliver
  rw [beq_self_eq_true]
  by_cases hdiff : options.diff = true
  · simp [hdiff]
  by_cases hcheck : options.check = true
  · simp [hdiff, hcheck]
  by_cases hwrite : options.write = true
  · simp [hdiff, hcheck, hwrite]
  · simp [hdiff, hcheck, hwrite, Session.print]

theorem deliver_other {old new : String} (hne : new ≠ old) (console : Console)
    (options : FormatOptions) (s : Session) (input : Input) :
    (deliver console options s input old new).store =
        (if options.rewrites then s.store.write input.path new else s.store) ∧
      (options.check = true → options.diff = false →
        (deliver console options s input old new).out = s.out ++ staleLine console input) := by
  have hbeq : (new == old) = false := by simpa using hne
  unfold deliver FormatOptions.rewrites
  rw [hbeq]
  by_cases hdiff : options.diff = true
  · simp [hdiff, Session.print]
  by_cases hcheck : options.check = true
  · simp [hdiff, hcheck, Session.say, Session.print, staleLine]
  by_cases hwrite : options.write = true
  · simp [hdiff, hcheck, hwrite, Session.say, Session.print]
  · simp [hdiff, hcheck, hwrite, Session.print]

/-- A file that is read is shown, checked or written. -/
theorem Effect.delivered {old new : String} {s₁ : Session}
    (hold : s.store.read? input.path = some old) (hformat : reformat settings old = .ok new)
    (hstore : s₁.store = s.store) (hout : s₁.out = s.out) :
    Effect console settings options [input] tally
      (if new == old then tally else { tally with changed := tally.changed + 1 }) s
      (deliver console options s₁ input old new) := by
  obtain ⟨root, hread, -⟩ := reformat_eq_ok_iff.mp hformat
  have haccepted : isRefused s.store input.path = false := by
    simp [isRefused, hold, hread, Except.toOption]
  by_cases hne : new = old
  · subst hne
    have hnone : rewritten? settings s.store input.path = none := by
      simp [rewritten?, hold, hformat, Except.toOption]
    obtain ⟨hfiles, hlines⟩ := deliver_same console options s₁ input new
    refine ⟨?_, ?_, ?_, ?_, ?_⟩
    · simp [hfiles, hstore, hnone]
    · simp [hfiles, hstore]
    · simp [haccepted]
    · simp [stale, hnone]
    · intro hcheck _
      simp [stale, hnone, hlines hcheck, hout]
  · have hsome : rewritten? settings s.store input.path = some new :=
      rewritten_eq_some_iff.mpr ⟨old, hold, hformat, hne⟩
    have hbeq : (new == old) = false := by simpa using hne
    obtain ⟨hfiles, hlines⟩ := deliver_other hne console options s₁ input
    rw [hstore] at hfiles
    refine ⟨?_, ?_, ?_, ?_, ?_⟩
    · rw [List.forall_mem_singleton, hfiles, hsome, Option.some_or]
      split
      · rw [Store.content_write, if_pos rfl]
      · rfl
    · intro path hpath
      have hother : path ≠ input.path := Ne.symm (hpath input List.mem_cons_self)
      rw [hfiles]
      split
      · rw [Store.content_write, if_neg hother]
      · rfl
    · simp [haccepted, hbeq]
    · simp [stale, hsome, hbeq]
    · intro hcheck hdiff
      simp [stale, hsome, hlines hcheck hdiff, hout]

/-- One file of a list: the run breaks off there, or goes on with the other files. -/
theorem formatFiles_step {old : String} (hold : s.store.read? input.path = some old)
    (settings : Settings) (options : FormatOptions) (inputs : List Input) (tally : Tally) :
    (∃ fault e, (Root.read old).result = .error (.value fault) ∧
      formatFiles console settings options (input :: inputs) tally s = .error e) ∨
    (∀ fault, (Root.read old).result ≠ .error (.value fault)) ∧ ∃ tally₁ s₁,
      formatFiles console settings options (input :: inputs) tally s =
        formatFiles console settings options inputs tally₁ s₁ ∧
      Effect console settings options [input] tally tally₁ s s₁ := by
  have htext : textOf s input = old := by rw [textOf, hold, Option.getD_some]
  obtain ⟨s₁, hs₁, hstore, hout⟩ := readTree_eq s old
  rw [formatFiles, htext]
  dsimp only
  rw [hs₁]
  dsimp only
  cases hread : (Root.read old).result with
  | error e =>
    have hrefused : isRefused s.store input.path = true := by
      simp [isRefused, hold, hread, Except.toOption]
    cases e with
    | value fault => exact .inl ⟨fault, _, rfl, rfl⟩
    | lexer c p | grammar c p =>
      exact .inr ⟨nofun, _, _, rfl, .refused hrefused hstore hout⟩
  | ok root =>
    have hformat : reformat settings old = .ok (root.formatted settings old) :=
      reformat_eq_ok_iff.mpr ⟨root, hread, rfl⟩
    exact .inr ⟨nofun, _, _, rfl, .delivered hold hformat hstore hout⟩

/-- Whether the text of a file breaks a run off. -/
def Breaks (store : Store) (path : Path) : Prop :=
  ∃ old fault, store.read? path = some old ∧ (Root.read old).result = .error (.value fault)

/-- A run breaks off at a file, or it has its effect on all of them. -/
theorem formatFiles_run (tally : Tally) (s : Session) (hdistinct : (inputs.map (·.path)).Nodup)
    (hfound : ∀ input ∈ inputs, ∃ old, s.store.read? input.path = some old) :
    (∃ e, formatFiles console settings options inputs tally s = .error e ∧
      ∃ input ∈ inputs, Breaks s.store input.path) ∨
    (∃ s' tally', formatFiles console settings options inputs tally s = .ok (s', tally') ∧
      Effect console settings options inputs tally tally' s s' ∧
      ∀ input ∈ inputs, ¬Breaks s.store input.path) := by
  induction inputs generalizing tally s with
  | nil => exact .inr ⟨s, tally, rfl, .nil, by simp⟩
  | cons input inputs ih =>
    obtain ⟨⟨old, hold⟩, hothers⟩ := List.forall_mem_cons.mp hfound
    rw [List.map_cons, List.nodup_cons] at hdistinct
    obtain ⟨hhead, hdistinct⟩ := hdistinct
    have hpath : ∀ other ∈ inputs, input.path ≠ other.path :=
      fun other hmem heq => hhead (heq ▸ List.mem_map_of_mem hmem)
    obtain ⟨fault, e, hread, herror⟩ | ⟨hread, tally₁, s₁, hstep, heffect⟩ :=
      formatFiles_step hold settings options inputs tally
    · exact .inl ⟨e, herror, input, List.mem_cons_self, old, fault, hold, hread⟩
    have hkept : ∀ other ∈ inputs, s₁.store.read? other.path = s.store.read? other.path := by
      intro other hmem
      rw [Store.read?, Store.read?, heffect.kept _ (by simpa using hpath other hmem)]
    have hbreaks : ∀ other ∈ inputs, Breaks s₁.store other.path ↔ Breaks s.store other.path := by
      intro other hmem
      rw [Breaks, Breaks, hkept other hmem]
    rw [hstep]
    obtain ⟨e, herror, other, hmem, hother⟩ | ⟨s', tally', hok, hrest, hnone⟩ :=
      ih tally₁ s₁ hdistinct fun other hmem => hkept other hmem ▸ hothers other hmem
    · exact .inl ⟨e, herror, other, List.mem_cons_of_mem _ hmem, (hbreaks other hmem).mp hother⟩
    · refine .inr ⟨s', tally', hok, .cons hpath heffect hrest, List.forall_mem_cons.mpr ⟨?_, ?_⟩⟩
      · rintro ⟨old', fault, hold', hfault⟩
        obtain rfl : old = old' := Option.some.inj (hold.symm.trans hold')
        exact hread fault hfault
      · exact fun other hmem => (hbreaks other hmem).not.mp (hnone other hmem)

/-- The file that the options are read from, if one is named; nothing if it is not there. -/
def configFile? (store : Store) (options : FormatOptions) : Option (Option Input) :=
  match options.config with
  | none => some none
  | some name => (Input.of? store name).map some

/-- The settings that a command line asks for, if its configuration loads. -/
def configuration? (platform : Platform) (store : Store) (options : FormatOptions) :
    Option Settings :=
  (configFile? store options).bind fun config =>
    (loadSettings platform.data? ⟨false, "", "", store⟩ options config).toOption

theorem mapM_eq_some_iff {α β : Type} {f : α → Option β} {xs : List α} {ys : List β} :
    xs.mapM f = some ys ↔ (∀ x ∈ xs, (f x).isSome = true) ∧ ys = xs.filterMap f := by
  induction xs generalizing ys with
  | nil =>
    constructor
    · intro h
      cases h
      exact ⟨nofun, rfl⟩
    · rintro ⟨-, rfl⟩
      rfl
  | cons x xs ih =>
    rw [List.mapM_cons, List.forall_mem_cons]
    cases hx : f x with
    | none => simp
    | some y =>
      rw [List.filterMap_cons_some hx]
      constructor
      · intro h
        obtain ⟨y', hy, h⟩ := Option.bind_eq_some_iff.mp h
        cases hy
        obtain ⟨zs, hzs, h⟩ := Option.bind_eq_some_iff.mp h
        cases h
        obtain ⟨hsome, rfl⟩ := ih.mp hzs
        exact ⟨⟨rfl, hsome⟩, rfl⟩
      · rintro ⟨⟨-, hsome⟩, rfl⟩
        refine Option.bind_eq_some_iff.mpr ⟨y, rfl, ?_⟩
        exact Option.bind_eq_some_iff.mpr ⟨_, ih.mpr ⟨hsome, rfl⟩, rfl⟩

theorem Input.found {name : String} (h : Input.of? store name = some input) :
    ∃ old, store.read? input.path = some old := by
  obtain ⟨path, hpath, h⟩ := Option.bind_eq_some_iff.mp h
  cases h
  rw [Store.file?] at hpath
  split at hpath
  · cases hpath
  · obtain ⟨resolved, -, hpath⟩ := Option.bind_eq_some_iff.mp hpath
    obtain ⟨raw, hraw, hpath⟩ := Option.bind_eq_some_iff.mp hpath
    cases hpath
    exact ⟨_, Store.read_eq_some_iff.mpr ⟨raw, hraw, rfl⟩⟩

/-- A file that formatting would give another text. -/
def WouldChange (settings : Settings) (store : Store) (path : Path) : Prop :=
  ∃ old new, store.read? path = some old ∧ reformat settings old = .ok new ∧ new ≠ old

/-- A file that formatting cannot read. -/
def Fails (settings : Settings) (store : Store) (path : Path) : Prop :=
  ∃ old e, store.read? path = some old ∧ reformat settings old = .error e

theorem wouldChange_iff :
    WouldChange settings store path ↔ (rewritten? settings store path).isSome = true := by
  rw [Option.isSome_iff_exists]
  constructor
  · rintro ⟨old, new, h⟩
    exact ⟨new, rewritten_eq_some_iff.mpr ⟨old, h⟩⟩
  · rintro ⟨new, h⟩
    obtain ⟨old, h⟩ := rewritten_eq_some_iff.mp h
    exact ⟨old, new, h⟩

theorem fails_iff_refused {old : String} (hold : store.read? path = some old) :
    Fails settings store path ↔ isRefused store path = true := by
  unfold Fails isRefused reformat
  rw [hold]
  cases hread : (Root.read old).result with
  | error e => simp [Except.map, Except.toOption, hread]
  | ok root => simp [Except.map, Except.toOption, hread]

/-- What a run has done that does not break off. -/
structure Formats (console : Console) (settings : Settings) (options : FormatOptions)
    (inputs : List Input) (store : Store) (status : Status) (session : Session) : Prop where
  changes : ∀ path, session.store.content? path ≠ store.content? path ↔
    options.write = true ∧ options.check = false ∧ options.diff = false ∧
      (∃ input ∈ inputs, input.path = path) ∧ WouldChange settings store path
  contents : ∀ path old new, session.store.content? path ≠ store.content? path →
    store.read? path = some old → reformat settings old = .ok new →
    session.store.content? path = some new
  exit_one : status.exitCode = 1 ↔ (∃ input ∈ inputs, Fails settings store input.path) ∨
    options.check = true ∧ ∃ input ∈ inputs, WouldChange settings store input.path
  exit_zero : status.exitCode = 0 ∨ status.exitCode = 1
  named : options.check = true → options.diff = false →
    session.out = String.join ((stale settings store inputs).map (staleLine console))

theorem rewrites_iff : options.rewrites = true ↔
    options.write = true ∧ options.check = false ∧ options.diff = false := by
  simp [FormatOptions.rewrites, and_assoc]

/-- What every path holds behind a run. -/
theorem Effect.content_eq {before : Tally}
    (h : Effect console settings options inputs before tally s s') (path : Path) :
    s'.store.content? path =
      if options.rewrites = true ∧ ∃ input ∈ inputs, input.path = path then
        (rewritten? settings s.store path).or (s.store.content? path)
      else s.store.content? path := by
  by_cases hmem : ∃ input ∈ inputs, input.path = path
  · obtain ⟨input, hinput, rfl⟩ := hmem
    rw [h.content input hinput]
    by_cases hwrite : options.rewrites = true
    · rw [if_pos hwrite, if_pos ⟨hwrite, input, hinput, rfl⟩]
    · rw [if_neg hwrite, if_neg fun h => hwrite h.1]
  · rw [if_neg fun h => hmem h.2]
    exact h.kept path fun input hinput heq => hmem ⟨input, hinput, heq⟩

/-- A path that is changed is one that the run rewrites, and it holds the formatted text. -/
theorem Effect.changed_iff {before : Tally}
    (h : Effect console settings options inputs before tally s s') (path : Path) :
    s'.store.content? path ≠ s.store.content? path ↔
      (options.rewrites = true ∧ ∃ input ∈ inputs, input.path = path) ∧
        ∃ new, rewritten? settings s.store path = some new ∧ s'.store.content? path = some new := by
  rw [h.content_eq path]
  constructor
  · intro hne
    split at hne
    case isFalse => exact absurd rfl hne
    case isTrue hpath =>
      refine ⟨hpath, ?_⟩
      cases hnew : rewritten? settings s.store path with
      | none =>
        rw [hnew] at hne
        exact absurd rfl hne
      | some new => exact ⟨new, rfl, by rw [if_pos hpath, Option.some_or]⟩
  · rintro ⟨hpath, new, hnew, -⟩
    rw [if_pos hpath, hnew, Option.some_or]
    exact Ne.symm (rewritten_ne_content hnew)

/-- A run fails where a file cannot be read, and a check where a file would be changed. -/
theorem Effect.fails_iff (h : Effect console settings options inputs ⟨false, 0⟩ tally s s')
    (hfound : ∀ input ∈ inputs, ∃ old, s.store.read? input.path = some old) :
    (tally.failed || (options.check && tally.changed > 0)) = true ↔
      (∃ input ∈ inputs, Fails settings s.store input.path) ∨
        options.check = true ∧ ∃ input ∈ inputs, WouldChange settings s.store input.path := by
  rw [Bool.or_eq_true, Bool.and_eq_true, decide_eq_true_iff]
  refine or_congr ?_ (and_congr_right fun _ => ?_)
  · rw [h.failed, Bool.false_or, List.any_eq_true]
    refine exists_congr fun input => and_congr_right fun hmem => ?_
    obtain ⟨old, hold⟩ := hfound input hmem
    exact (fails_iff_refused hold).symm
  · rw [h.changed, Nat.zero_add, gt_iff_lt, List.length_pos_iff_exists_mem]
    refine exists_congr fun input => ?_
    rw [stale, List.mem_filter, wouldChange_iff]

/-- The effect on all files is that of a run. -/
theorem Effect.formats {verbose : Bool}
    (h : Effect console settings options inputs ⟨false, 0⟩ tally ⟨verbose, "", "", store⟩ s')
    (hfound : ∀ input ∈ inputs, ∃ old, store.read? input.path = some old) {session : Session}
    (hstore : session.store = s'.store) (hout : session.out = s'.out) :
    Formats console settings options inputs store
      (if tally.failed || (options.check && tally.changed > 0) then .failed else .done)
        session where
  changes path := by
    rw [hstore, h.changed_iff path, rewrites_iff]
    constructor
    · rintro ⟨⟨⟨hwrite, hcheck, hdiff⟩, hpath⟩, new, hnew, -⟩
      exact ⟨hwrite, hcheck, hdiff, hpath, wouldChange_iff.mpr (Option.isSome_of_eq_some hnew)⟩
    · rintro ⟨hwrite, hcheck, hdiff, hpath, hwould⟩
      obtain ⟨new, hnew⟩ := Option.isSome_iff_exists.mp (wouldChange_iff.mp hwould)
      have hrewritten : options.rewrites = true ∧ ∃ input ∈ inputs, input.path = path :=
        ⟨rewrites_iff.mpr ⟨hwrite, hcheck, hdiff⟩, hpath⟩
      refine ⟨⟨⟨hwrite, hcheck, hdiff⟩, hpath⟩, new, hnew, ?_⟩
      rw [h.content_eq path, if_pos hrewritten, hnew, Option.some_or]
  contents path old new hchanged hold hformat := by
    rw [hstore] at hchanged ⊢
    obtain ⟨-, text, hrewritten, hcontent⟩ := (h.changed_iff path).mp hchanged
    obtain ⟨old', hold', hformat', -⟩ := rewritten_eq_some_iff.mp hrewritten
    obtain rfl : old = old' := Option.some.inj (hold.symm.trans hold')
    obtain rfl : new = text := Except.ok.inj (hformat.symm.trans hformat')
    exact hcontent
  exit_one := by
    rw [← h.fails_iff hfound]
    split
    case isTrue hone => exact iff_of_true rfl hone
    case isFalse hone => exact iff_of_false (by simp [Status.exitCode]) hone
  exit_zero := by
    split
    · exact .inr rfl
    · exact .inl rfl
  named hcheck hdiff := by
    rw [hout, h.named hcheck hdiff, String.empty_append]

variable {args files : List String} {verbose : Bool}

/-- Settings that load do so whatever is logged. -/
theorem configuration_loads (h : configuration? platform store options = some settings)
    (verbose : Bool) :
    ∃ config, configFile? store options = some config ∧
      loadSettings platform.data? ⟨verbose, "", "", store⟩ options config = .ok settings := by
  obtain ⟨config, hconfig, hload⟩ := Option.bind_eq_some_iff.mp h
  refine ⟨config, hconfig, ?_⟩
  change loadSettings platform.data? ⟨false, "", "", store⟩ options config = .ok settings
  cases hok : loadSettings platform.data? ⟨false, "", "", store⟩ options config with
  | error e =>
    rw [hok] at hload
    cases hload
  | ok result =>
    rw [hok] at hload
    cases hload
    rfl

/-- A command line that names files which are there formats them. -/
theorem run_format {config : Option Input}
    (hargs : platform.commandLine args = .request (.format options files) verbose)
    (hfiles : files.mapM (Input.of? store) = some inputs)
    (hconfig : configFile? store options = some config) :
    platform.run store args =
      runFormat platform options config inputs ⟨verbose, "", "", store⟩ := by
  rw [Platform.run, hargs]
  dsimp only
  rw [Request.run?, hfiles]
  unfold configFile? at hconfig
  cases hname : options.config with
  | none =>
    rw [hname] at hconfig
    cases hconfig
    rfl
  | some name =>
    rw [hname] at hconfig
    dsimp only at hconfig ⊢
    rw [hconfig]
    rfl

/-- A run on files breaks off at one of them, or does what it is asked for. -/
theorem run_formats (hargs : platform.commandLine args = .request (.format options files) verbose)
    (hfiles : files.mapM (Input.of? store) = some inputs) (hdistinct : (inputs.map (·.path)).Nodup)
    (hsettings : configuration? platform store options = some settings) :
    (∃ failure, (platform.run store args).1 = .broken failure ∧ ∃ input ∈ inputs,
      Breaks store input.path) ∨
    (Formats platform.console settings options inputs store (platform.run store args).1
      (platform.run store args).2 ∧
      ∀ input ∈ inputs, ¬Breaks store input.path) := by
  have hfound : ∀ input ∈ inputs, ∃ old, store.read? input.path = some old := by
    intro input hmem
    rw [(mapM_eq_some_iff.mp hfiles).2] at hmem
    obtain ⟨name, -, hname⟩ := List.mem_filterMap.mp hmem
    exact Input.found hname
  obtain ⟨config, hconfig, hloaded⟩ := configuration_loads hsettings verbose
  rw [run_format hargs hfiles hconfig, runFormat, hloaded]
  dsimp only
  obtain ⟨⟨s', failure⟩, herror, hbreaks⟩ | ⟨s', tally, hok, heffect, hnone⟩ :=
    formatFiles_run ⟨false, 0⟩ ⟨verbose, "", "", store⟩ hdistinct hfound
  · rw [herror]
    exact .inl ⟨failure, rfl, hbreaks⟩
  · rw [hok]
    refine .inr ⟨heffect.formats hfound ?_ ?_, hnone⟩
    · dsimp only
      rw [Session.debug]
      split <;> rfl
    · dsimp only
      rw [Session.debug]
      split <;> rfl

/-- Two runs that both work on a file, or both do not, leave it with the same content. -/
theorem Formats.content_eq {inputs' : List Input} {status status' : Status}
    {session session' : Session} (h : Formats console settings options inputs store status session)
    (h' : Formats console settings options inputs' store status' session')
    (hpath : (∃ input ∈ inputs, input.path = path) ↔ ∃ input ∈ inputs', input.path = path) :
    session'.store.content? path = session.store.content? path := by
  by_cases hsame : session.store.content? path = store.content? path
  · rw [hsame]
    by_contra hne
    obtain ⟨hwrite, hcheck, hdiff, hmem, hwould⟩ := (h'.changes path).mp hne
    exact (h.changes path).mpr ⟨hwrite, hcheck, hdiff, hpath.mpr hmem, hwould⟩ hsame
  · obtain ⟨hwrite, hcheck, hdiff, hmem, old, new, hold, hformat, hne⟩ := (h.changes path).mp hsame
    have hchanged := (h'.changes path).mpr
      ⟨hwrite, hcheck, hdiff, hpath.mp hmem, old, new, hold, hformat, hne⟩
    rw [h.contents path old new hsame hold hformat, h'.contents path old new hchanged hold hformat]

/-- Where no file breaks a run off, a run on some of the files does what it is asked for. -/
theorem run_formats_some {files' : List String}
    (hargs : platform.commandLine args = .request (.format options files') verbose)
    (hfiles : files.mapM (Input.of? store) = some inputs) (hdistinct : (inputs.map (·.path)).Nodup)
    (hnone : ∀ input ∈ inputs, ¬Breaks store input.path) (hsub : files'.Subperm files)
    (hsettings : configuration? platform store options = some settings) :
    Formats platform.console settings options (files'.filterMap (Input.of? store)) store
      (platform.run store args).1 (platform.run store args).2 := by
  obtain ⟨hsome, hinputs⟩ := mapM_eq_some_iff.mp hfiles
  obtain ⟨kept, hperm, hkept⟩ := hsub
  have hsublist : (kept.filterMap (Input.of? store)).Sublist inputs := hinputs ▸ hkept.filterMap _
  have hfilter := hperm.filterMap (Input.of? store)
  have hfiles' : files'.mapM (Input.of? store) = some (files'.filterMap (Input.of? store)) :=
    mapM_eq_some_iff.mpr ⟨fun name hname =>
      hsome name (hkept.subset (hperm.mem_iff.mpr hname)), rfl⟩
  have hdistinct' : ((files'.filterMap (Input.of? store)).map (·.path)).Nodup :=
    (hfilter.map _).nodup_iff.mp (hdistinct.sublist (hsublist.map _))
  obtain ⟨-, -, input, hinput, hbreaks⟩ | ⟨hformats, -⟩ :=
    run_formats hargs hfiles' hdistinct' hsettings
  · exact absurd hbreaks (hnone input (hsublist.subset (hfilter.mem_iff.mpr hinput)))
  · exact hformats

/-- On distinct files, under options that load, a run that does not break off changes the files that
it has to change. The order of the files does not matter, nor do the other files of the command
line. A check has one line for each file that would be written, and a console that shows plain texts
as they are shows there the names of just these files, if they are plain. -/
theorem files_rewritten
    (hargs : platform.commandLine args = .request (.format options files) verbose)
    (hfiles : files.mapM (Input.of? store) = some inputs) (hdistinct : (inputs.map (·.path)).Nodup)
    (hsettings : configuration? platform store options = some settings)
    (hends : ∀ failure, (platform.run store args).1 ≠ .broken failure) :
    Formats platform.console settings options inputs store (platform.run store args).1
      (platform.run store args).2 ∧
    (∀ args' files' verbose', platform.commandLine args' =
      .request (.format options files') verbose' →
      files'.Perm files →
        (platform.run store args').1.exitCode = (platform.run store args).1.exitCode ∧
        ∀ path, (platform.run store args').2.store.content? path =
          (platform.run store args).2.store.content? path) ∧
    (∀ args' files' verbose', platform.commandLine args' =
      .request (.format options files') verbose' →
      files'.Sublist files → ∀ name ∈ files', ∀ input, Input.of? store name = some input →
        (platform.run store args').2.store.content? input.path =
          (platform.run store args).2.store.content? input.path) ∧
    (options.check = true → options.diff = false → ∀ args' verbose',
      platform.commandLine args' =
        .request (.format { options with write := true, check := false } files) verbose' →
      (platform.run store args).2.out = String.join
        ((inputs.filter fun input => (platform.run store args').2.store.content? input.path ≠
          store.content? input.path).map (staleLine platform.console)) ∧
      (platform.console.ShowsPlain →
        (∀ input ∈ inputs, ∀ c ∈ input.name.toList, Message.isPlain c = true) →
        (platform.run store args).2.out = String.join
          ((inputs.filter fun input => (platform.run store args').2.store.content? input.path ≠
            store.content? input.path).map fun input =>
              "would reformat " ++ input.name ++ "\n"))) := by
  obtain ⟨failure, hbroken, -⟩ | ⟨hformats, hnone⟩ := run_formats hargs hfiles hdistinct hsettings
  · exact absurd hbroken (hends failure)
  obtain ⟨-, hinputs⟩ := mapM_eq_some_iff.mp hfiles
  refine ⟨hformats, ?_, ?_, ?_⟩
  · intro args' files' verbose' hargs' hperm
    have hformats' := run_formats_some hargs' hfiles hdistinct hnone hperm.subperm hsettings
    have hmem (input : Input) : input ∈ files'.filterMap (Input.of? store) ↔ input ∈ inputs := by
      rw [hinputs]
      exact (hperm.filterMap _).mem_iff
    refine ⟨?_, fun path => hformats.content_eq hformats' ?_⟩
    · have hone : (platform.run store args').1.exitCode = 1 ↔
          (platform.run store args).1.exitCode = 1 := by
        rw [hformats'.exit_one, hformats.exit_one]
        simp only [hmem]
      have hzero' := hformats'.exit_zero
      have hzero := hformats.exit_zero
      omega
    · simp only [hmem]
  · intro args' files' verbose' hargs' hsub name hname input hinput
    have hformats' := run_formats_some hargs' hfiles hdistinct hnone hsub.subperm hsettings
    have hmem' : input ∈ files'.filterMap (Input.of? store) :=
      List.mem_filterMap.mpr ⟨name, hname, hinput⟩
    have hmem : input ∈ inputs := hinputs ▸ (hsub.filterMap _).subset hmem'
    exact hformats.content_eq hformats' (iff_of_true ⟨input, hmem, rfl⟩ ⟨input, hmem', rfl⟩)
  · intro hcheck hdiff args' verbose' hargs'
    have hformats' := run_formats_some hargs' hfiles hdistinct hnone (.refl _) hsettings
    have hlines : (platform.run store args).2.out = String.join
        ((inputs.filter fun input => (platform.run store args').2.store.content? input.path ≠
          store.content? input.path).map (staleLine platform.console)) := by
      rw [hformats.named hcheck hdiff, stale]
      congr 2
      refine List.filter_congr fun input hinput => ?_
      have hwould : (platform.run store args').2.store.content? input.path ≠
          store.content? input.path ↔ (rewritten? settings store input.path).isSome = true := by
        rw [hformats'.changes, ← wouldChange_iff, ← hinputs]
        exact ⟨fun h => h.2.2.2.2, fun h => ⟨rfl, rfl, hdiff, ⟨input, hinput, rfl⟩, h⟩⟩
      rw [Bool.eq_iff_iff, ← hwould]
      exact decide_eq_true_iff.symm
    refine ⟨hlines, fun hconsole hnames => ?_⟩
    rw [hlines]
    congr 1
    refine List.map_congr_left fun input hinput => ?_
    exact staleLine_plain hconsole (hnames input (List.mem_of_mem_filter hinput))

/-- A file that is no signature file, one to be written, with line ends of its own, and one that
stays. -/
def mixedStore : Store where
  files := [(["bad.rbs"], "class"), (["a.rbs"], "class A\r\nend"), (["sig", "b.rbs"], "B: A\n")]
  directories := []

def mixedFiles : List String := ["bad.rbs", "./a.rbs", "sig/b.rbs"]

def mixedOptions (write check : Bool) : FormatOptions where
  write := write
  check := check
  diff := false
  width := none
  config := none

def mixedInputs : List Input :=
  [⟨"bad.rbs", ["bad.rbs"]⟩, ⟨"a.rbs", ["a.rbs"]⟩, ⟨"sig/b.rbs", ["sig", "b.rbs"]⟩]

def Status.isBroken : Status → Bool
  | .broken _ => true
  | .done | .failed | .misused => false

theorem not_broken {status : Status} (h : status.isBroken = false) (failure : Failure) :
    status ≠ .broken failure := by
  rintro rfl
  cases h

/-- The check names the one file that is written. -/
theorem files_rewritten_sample :
    Platform.standard.commandLine ("format" :: "--check" :: mixedFiles) =
      .request (.format (mixedOptions false true) mixedFiles) false ∧
    mixedFiles.mapM (Input.of? mixedStore) = some mixedInputs ∧
    (mixedInputs.map (·.path)).Nodup ∧
    configuration? Platform.standard mixedStore (mixedOptions false true) = some .standard ∧
    (∀ failure, (Platform.standard.run mixedStore ("format" :: "--check" :: mixedFiles)).1 ≠
      .broken failure) ∧
    (Platform.standard.run mixedStore ("format" :: "--check" :: mixedFiles)).2.out = String.join
      ((mixedInputs.filter fun input =>
        (Platform.standard.run mixedStore ("format" :: "--write" :: mixedFiles)).2.store.content?
          input.path ≠
          mixedStore.content? input.path).map fun input =>
            "would reformat " ++ input.name ++ "\n") ∧
    (Platform.standard.run mixedStore ("format" :: "--check" :: mixedFiles)).2.out =
      "would reformat a.rbs\n" := by
  have hargs : Platform.standard.commandLine ("format" :: "--check" :: mixedFiles) =
      .request (.format (mixedOptions false true) mixedFiles) false := by
    decide +kernel
  have hargs' : Platform.standard.commandLine ("format" :: "--write" :: mixedFiles) =
      .request (.format (mixedOptions true false) mixedFiles) false := by
    decide +kernel
  have hfiles : mixedFiles.mapM (Input.of? mixedStore) = some mixedInputs := by
    decide +kernel
  have hdistinct : (mixedInputs.map (·.path)).Nodup := by decide
  have hsettings : configuration? Platform.standard mixedStore (mixedOptions false true) =
      some .standard := by
    decide +kernel
  have hstatus :
      (Platform.standard.run mixedStore ("format" :: "--check" :: mixedFiles)).1.isBroken =
        false := by
    decide +kernel
  have hends := not_broken hstatus
  have hplain : ∀ input ∈ mixedInputs, ∀ c ∈ input.name.toList, Message.isPlain c = true := by
    decide
  have hout : (Platform.standard.run mixedStore ("format" :: "--check" :: mixedFiles)).2.out =
      "would reformat a.rbs\n" := by
    decide +kernel
  obtain ⟨-, -, -, hcheck⟩ := files_rewritten hargs hfiles hdistinct hsettings hends
  exact ⟨hargs, hfiles, hdistinct, hsettings, hends,
    (hcheck rfl rfl _ false hargs').2 Console.standard_knowsPictures.showsPlain hplain, hout⟩

-- A name between colons is shown as a picture, which is the name of another file.
example : staleLine Console.standard ⟨":100:.rbs", [":100:.rbs"]⟩ = "would reformat 💯.rbs\n" := by
  decide +kernel

end Command
end RubySig
