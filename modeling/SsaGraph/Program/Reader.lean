import SsaGraph.Func.Builder
import SsaGraph.SyntaxError

/-!
The reader: a state of tokens still to be read and of the function being built.
A fault leaves the state where it arose, so that reading can go on behind it.
-/

namespace SsaGraph

structure ReadState where
  /-- What is still to be read.  The end marker stays. -/
  rest : List (Located Token)
  /-- Faults that reading went on after, oldest first. -/
  faults : List (Located SyntaxError)
  builder : Builder
  /-- The values that `%name` stands for. -/
  locals : Table String Handle

abbrev Reader := EStateM (Located SyntaxError) ReadState

/-- What a round of a repetition ends with. -/
inductive Round (α : Type) where
  | again (a : α)
  | done (a : α)

namespace Reader

/-! ## Tokens ahead -/

def ahead : List (Located Token) → Located Token
  | [] => ⟨.eof, .absent⟩
  | t :: _ => t

/-- The token after the next one, or the end marker itself. -/
def afterNext : List (Located Token) → Token
  | _ :: t :: _ => t.val
  | [t] => t.val
  | [] => .eof

/-- Everything behind the next token.  Nothing is behind the end marker. -/
def behind : List (Located Token) → List (Located Token)
  | [] => []
  | t :: ts => if t.val = .eof then t :: ts else ts

/-- The span from the next token to the last one of its line. -/
def lineSpan (ts : List (Located Token)) : Span :=
  let first := (ahead ts).span
  let last := (ts.takeWhile fun t => !t.val.endsLine).getLast?
  first.merge ((last.map (·.span)).getD first)

/-- Everything from the end of the current line. -/
def fromLineEnd (ts : List (Located Token)) : List (Located Token) :=
  ts.dropWhile fun t => !t.val.endsLine

/-- Everything behind a bracketed group, line ends included.  `depth` brackets
are open. -/
def behindGroup (opening closing : Token) : Nat → List (Located Token) → List (Located Token)
  | _, [] => []
  | depth, t :: ts =>
    if t.val = .eof then t :: ts
    else if t.val = opening then behindGroup opening closing (depth + 1) ts
    else if t.val = closing then
      if depth ≤ 1 then ts else behindGroup opening closing (depth - 1) ts
    else behindGroup opening closing depth ts

/-- Everything behind the closing brace of a body: the first one that ends its
line. -/
def behindBody : List (Located Token) → List (Located Token)
  | [] => []
  | t :: ts =>
    if t.val = .eof then t :: ts
    else if t.val = .rbrace ∧ (ahead ts).val.endsLine then ts
    else behindBody ts

/-! ## Steps -/

def peek : Reader Token := fun s => .ok (ahead s.rest).val s

def peekNext : Reader Token := fun s => .ok (afterNext s.rest) s

def skip (f : List (Located Token) → List (Located Token)) : Reader Unit :=
  fun s => .ok () { s with rest := f s.rest }

def advance : Reader Unit := skip behind

/-- Fail at the next token. -/
def fail {α : Type} (e : SyntaxError) : Reader α :=
  fun s => .error ⟨e, (ahead s.rest).span⟩ s

/-- Take a token without content if it is next. -/
def eat (t : Token) : Reader Bool := do
  if (← peek) = t then
    advance
    return true
  return false

def eatKeyword (keyword : String) : Reader Bool := eat (.word keyword)

def expect (t : Token) : Reader Unit := do
  unless ← eat t do fail (.expected t (← peek))

def expectKeyword (keyword : String) : Reader Unit := do
  unless ← eatKeyword keyword do fail (.expectedKeyword keyword (← peek))

def expectWord : Reader (Located String) := fun s =>
  match (ahead s.rest).val with
  | .word w => .ok ⟨w, (ahead s.rest).span⟩ { s with rest := behind s.rest }
  | t => .error ⟨.expectedWord t, (ahead s.rest).span⟩ s

def expectInteger : Reader UInt64 := do
  match ← peek with
  | .int n =>
    advance
    return n
  | t => fail (.expectedInteger t)

/-- Use the builder for a value. -/
def build {α : Type} (f : Builder → Builder × α) : Reader α :=
  fun s => .ok (f s.builder).2 { s with builder := (f s.builder).1 }

/-- The value of a name. -/
def local? (name : String) : Reader (Option Handle) :=
  fun s => .ok (s.locals.get? name) s

def define (name : String) (v : Handle) : Reader Unit :=
  fun s => .ok () { s with locals := s.locals.insert name v }

/-- Note a fault of `m` and go on. -/
def recover (m : Reader Unit) : Reader Unit := fun s =>
  match m s with
  | .ok () t => .ok () t
  | .error e t => .ok () { t with faults := t.faults ++ [e] }

/-- Run `m`, and on a fault go on where it arose. -/
def tolerate {α : Type} (m : Reader α) : Reader (Option α) := fun s =>
  match m s with
  | .ok a t => .ok (some a) t
  | .error _ t => .ok none t

/-- Run `m`, and on a fault go back to where it started. -/
def attempt {α : Type} (m : Reader α) : Reader (Option α) := fun s =>
  match m s with
  | .ok a t => .ok (some a) t
  | .error _ t => .ok none { t with rest := s.rest }

/-- Repeat `step` until it is done.  A round that reads nothing is the last one,
which bounds the repetition by the tokens that are left. -/
def iterate {α : Type} (step : α → Reader (Round α)) (a : α) : Reader α := fun s =>
  match step a s with
  | .ok (.done b) t => .ok b t
  | .ok (.again b) t => if t.rest.length < s.rest.length then iterate step b t else .ok b t
  | .error e t => .error e t
termination_by s => s.rest.length

/-! ## Runs -/

section
variable {α β : Type} {a : α} {s t : ReadState} {e : Located SyntaxError}

theorem bind_of_ok {m : Reader α} {k : α → Reader β} (h : m s = .ok a t) :
    (m >>= k) s = k a t := by
  show EStateM.bind m k s = _
  rw [EStateM.bind, h]

theorem bind_of_error {m : Reader α} {k : α → Reader β} (h : m s = .error e t) :
    (m >>= k) s = .error e t := by
  show EStateM.bind m k s = _
  rw [EStateM.bind, h]

theorem bind_eq_ok {m : Reader α} {k : α → Reader β} {b : β} (h : (m >>= k) s = .ok b t) :
    ∃ a u, m s = .ok a u ∧ k a u = .ok b t := by
  cases hm : m s with
  | ok a u =>
    rw [bind_of_ok hm] at h
    exact ⟨a, u, rfl, h⟩
  | error e u =>
    rw [bind_of_error hm] at h
    cases h

variable {step : α → Reader (Round α)} {b : α}

theorem iterate_of_done (h : step a s = .ok (.done b) t) : iterate step a s = .ok b t := by
  rw [iterate, h]

theorem iterate_of_again (h : step a s = .ok (.again b) t)
    (hless : t.rest.length < s.rest.length) : iterate step a s = iterate step b t := by
  rw [iterate, h]
  exact if_pos hless

theorem iterate_of_idle (h : step a s = .ok (.again b) t)
    (hless : ¬t.rest.length < s.rest.length) : iterate step a s = .ok b t := by
  rw [iterate, h]
  exact if_neg hless

theorem iterate_of_error (h : step a s = .error e t) : iterate step a s = .error e t := by
  rw [iterate, h]

end

end Reader
end SsaGraph
