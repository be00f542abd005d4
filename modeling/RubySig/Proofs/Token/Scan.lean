import RubySig.Proofs.Token.Line

/-!
Scanning without fuel. What is read from a place on is settled by the first token, comment or white
space there and by what is read behind it.
-/
namespace RubySig.Lexer

def Reader.scan (r : Reader) : Except Error Scan := scanFrom r.rest.length r

def Scan.addToken (t : Token) (s : Scan) : Scan := { s with tokens := t :: s.tokens }

def Scan.addComment (k : CommentLine) (s : Scan) : Scan := { s with comments := k :: s.comments }

variable {r : Reader}

theorem scanFrom_succ (fuel : Nat) (h : r.rest.length ≤ fuel) :
    scanFrom (fuel + 1) r = scanFrom fuel r := by
  induction fuel generalizing r with
  | zero =>
    have hr : r.rest = [] := List.length_eq_zero_iff.mp (Nat.le_zero.mp h)
    rw [scanFrom, scanFrom, hr]
  | succ fuel ih =>
    rw [scanFrom, scanFrom.eq_def (fuel + 1)]
    dsimp only
    cases hr : r.rest with
    | nil => rfl
    | cons c cs =>
      rw [hr, List.length_cons] at h
      dsimp only
      rw [ih (r := r.pass [c] cs) (by simpa using h)]
      split
      · rfl
      split
      · have hline := (List.dropWhile_sublist (fun d => d != '\n') (l := cs)).length_le
        rw [ih (r := r.pass _ _) (show (cs.dropWhile (· != '\n')).length ≤ fuel by omega)]
      · cases hn : next r.before c cs with
        | error e => rfl
        | ok p =>
          have hsplit := congrArg List.length (next_genuine hn).split
          have hpos := List.length_pos_iff.mpr (next_genuine hn).nonempty
          rw [List.length_cons, List.length_append] at hsplit
          dsimp only
          rw [ih (r := r.pass p.taken p.rest) (show p.rest.length ≤ fuel by omega)]

theorem scanFrom_enough {fuel : Nat} (h : r.rest.length ≤ fuel) : scanFrom fuel r = r.scan := by
  induction fuel, h using Nat.le_induction with
  | base => rfl
  | succ fuel h ih => rw [scanFrom_succ fuel h, ih]

theorem Reader.scan_succ (r : Reader) : scanFrom (r.rest.length + 1) r = r.scan :=
  scanFrom_enough (Nat.le_succ _)

theorem scan_eq_start (text : List Char) : scan text = (Reader.start text).scan := rfl

theorem Reader.scan_nil (h : r.rest = []) : r.scan = .ok ⟨[], [], r.position⟩ := by
  rw [Reader.scan, h, List.length_nil, scanFrom]

theorem Reader.scan_white {w rest : List Char} (hw : ∀ c ∈ w, isSpace c = true)
    (h : r.rest = w ++ rest) :
    r.scan = (r.pass w rest).scan := by
  rw [Reader.scan, h, List.length_append, scanFrom_white w rest hw _ r h]
  rfl

theorem Reader.scan_comment {line rest : List Char} (hl : '\n' ∉ line) (hr : Breaks rest)
    (h : r.rest = '#' :: line ++ rest) :
    r.scan = (r.pass ('#' :: line) rest).scan.map (Scan.addComment
      ⟨commentText line, r.position, r.position.after ('#' :: line), r.blank⟩) := by
  rw [← r.scan_succ, scanFrom, h]
  obtain ⟨htake, hdrop⟩ := takeWhile_line hl hr
  dsimp only [List.cons_append]
  rw [if_neg (by decide), if_pos (by rfl), htake, hdrop,
    scanFrom_enough (r := r.pass ('#' :: line) rest) (by
      rw [rest_pass, List.length_cons, List.length_append]; omega)]
  cases (r.pass ('#' :: line) rest).scan <;> rfl

theorem Reader.scan_token {c : Char} {cs : List Char} {p : Piece} (hc : isSpace c = false)
    (hne : c ≠ '#') (hn : next r.before c cs = .ok p) (h : r.rest = c :: cs) :
    r.scan = (r.pass p.taken p.rest).scan.map (Scan.addToken
      ⟨p.lexeme, r.position, r.position.after p.taken⟩) := by
  have hsplit := congrArg List.length (next_genuine hn).split
  rw [List.length_cons, List.length_append] at hsplit
  rw [← r.scan_succ, scanFrom, h]
  dsimp only
  rw [hc, if_neg Bool.false_ne_true, if_neg (by simpa using hne), hn]
  dsimp only
  rw [scanFrom_enough (r := r.pass p.taken p.rest) (show p.rest.length ≤ (c :: cs).length by
    rw [List.length_cons]; omega)]
  cases (r.pass p.taken p.rest).scan <;> rfl

theorem Reader.scan_stuck {c : Char} {cs : List Char} {e : Failure} (hc : isSpace c = false)
    (hne : c ≠ '#') (hn : next r.before c cs = .error e) (h : r.rest = c :: cs) :
    ∃ e', r.scan = .error e' := by
  rw [← r.scan_succ, scanFrom, h]
  dsimp only
  rw [hc, if_neg Bool.false_ne_true, if_neg (by simpa using hne), hn]
  exact ⟨_, rfl⟩

end RubySig.Lexer
