import UnitSheet.Proofs.Expr.Legibility
import UnitSheet.Proofs.Expr.Place

namespace UnitSheet.Expr

open Token (Same Spaced Respaces)

variable {source source' : String} {tokens tokens' : List Token} {limit : Int}

/-- The readings of two texts: one expression, or errors with one message. -/
inductive ReadAlike (r r' : Except Stop Expr) : Prop
  | expression {e : Expr} (h : r = .ok e) (h' : r' = .ok e)
  | error {p p' : ParseError} (h : r = .error (.failure (.parse p)))
      (h' : r' = .error (.failure (.parse p'))) (hm : p'.message = p.message)

/-- Another text has the same tokens, and it is read alike with every limit of nesting. -/
structure SaysSame (source : String) (tokens : List Token) (source' : String) : Prop where
  tokens : ∃ tokens', Token.tokenize source' = .ok tokens' ∧ List.Forall₂ Same tokens tokens'
  parse : ∀ limit, ReadAlike (Expr.parse source limit) (Expr.parse source' limit)

theorem readAlike_of_same (h : Token.tokenize source = .ok tokens)
    (h' : Token.tokenize source' = .ok tokens')
    (hsame : List.Forall₂ Same tokens tokens') (limit : Int) :
    ReadAlike (Expr.parse source limit) (Expr.parse source' limit) := by
  have hagrees := Parser.agrees_ofTokens hsame source source' limit
  have hreads := reads_ofTokens_of_tokenize h limit
  have hreads' := reads_ofTokens_of_tokenize h' limit
  rw [parse_eq_ofTokens h, parse_eq_ofTokens h']
  generalize ofTokens tokens source limit = r at hagrees hreads
  generalize ofTokens tokens' source' limit = r' at hagrees hreads'
  cases r with
  | ok e =>
    cases r' with
    | ok e' =>
      obtain rfl : e = e' := hagrees
      exact .expression rfl rfl
    | error stop => exact hagrees.elim
  | error stop =>
    obtain ⟨p, rfl⟩ := hreads.parse_error rfl
    cases r' with
    | ok e' => exact hagrees.elim
    | error stop' =>
      obtain ⟨p', rfl⟩ := hreads'.parse_error rfl
      have hcause : p'.cause = p.cause := hagrees
      exact .error rfl rfl (congrArg ParseError.Cause.message hcause)

theorem saysSame_of_respaces (h : Token.tokenize source = .ok tokens)
    (hs : Respaces (tokens.filter (·.kind ≠ .done)) source') : SaysSame source tokens source' := by
  obtain ⟨tokens', h', hsame⟩ := Token.tokenize_respaces h hs
  exact ⟨⟨tokens', h', hsame⟩, readAlike_of_same h h' hsame⟩

/-- A text whose tokens stand between any other gaps says the same, and so does its rendering. -/
theorem respaced_saysSame (source : String) (tokens : List Token)
    (h : Token.tokenize source = .ok tokens) :
    (∀ source', Respaces (tokens.filter (·.kind ≠ .done)) source' → SaysSame source tokens source')
    ∧ SaysSame source tokens (Token.render tokens) :=
  ⟨fun _ hs => saysSame_of_respaces h hs, saysSame_of_respaces h (Token.respaces_render tokens)⟩

def boundTokens : List Token :=
  [{ kind := .name, text := "x_\x7b1\x7d", pos := 0 },
   { kind := .operator (.comparison .le), text := "\\le", pos := 5 },
   { kind := .number, text := "2", pos := 8, value := 2 },
   { kind := .done, text := "", pos := 9 }]

theorem bound_respaced_saysSame :
    Token.tokenize "x_\x7b1\x7d\\le2" = .ok boundTokens ∧
      SaysSame "x_\x7b1\x7d\\le2" boundTokens " x_\x7b1\x7d\\,\\le\\ \t2" ∧
      SaysSame "x_\x7b1\x7d\\le2" boundTokens "x_\x7b1\x7d \\le 2" := by
  have htokens : Token.tokenize "x_\x7b1\x7d\\le2" = .ok boundTokens := rfl
  obtain ⟨hall, hrender⟩ := respaced_saysSame _ _ htokens
  have hspaced : Spaced (boundTokens.filter (·.kind ≠ .done))
      ("x_\x7b1\x7d".toList ++
        (['\\', ','] ++ ("\\le".toList ++ (['\\', ' ', '\t'] ++ ("2".toList ++ ([] ++ [])))))) :=
    .cons (.command rfl .nil) (fun _ => List.cons_ne_nil _ _)
      (.cons (.command rfl (.blank rfl .nil)) (fun _ => List.cons_ne_nil _ _)
        (.cons .nil (fun h => absurd rfl h) .nil))
  exact ⟨htokens, hall _ ⟨[' '], _, .blank rfl .nil, hspaced, rfl⟩, hrender⟩

end UnitSheet.Expr
