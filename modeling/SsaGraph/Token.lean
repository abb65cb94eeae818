import SsaGraph.Binary64.Style

/-!
Tokens of the text form.
-/

namespace SsaGraph

/-- Line ends are tokens, because an instruction ends with its line. -/
inductive Token where
  /-- `%name`. -/
  | loc (name : String)
  /-- `@name`. -/
  | glob (name : String)
  /-- Keywords, opcodes, types, predicates and bare label names. -/
  | word (text : String)
  | int (value : UInt64)
  | float (value : Binary64)
  | str (text : String)
  /-- `#0`, a reference to an attribute group. -/
  | attr (name : String)
  /-- `!dbg`, a reference to metadata. -/
  | metadata (name : String)
  | lparen | rparen | lbrace | rbrace | lbracket | rbracket | langle | rangle
  | comma | equals | colon | star | ellipsis
  | newline
  | eof
  deriving DecidableEq, Repr

namespace Token

/-- How a token is named in messages. -/
def description : Token → String
  | loc name => s!"'%{name}'"
  | glob name => s!"'@{name}'"
  | word text => s!"'{text}'"
  | int value => s!"integer {value}"
  | float value => s!"float {value.text}"
  | str _ => "string"
  | attr name => s!"'#{name}'"
  | metadata name => s!"'!{name}'"
  | lparen => "'('"
  | rparen => "')'"
  | lbrace => "'\x7b'"
  | rbrace => "'\x7d'"
  | lbracket => "'['"
  | rbracket => "']'"
  | langle => "'<'"
  | rangle => "'>'"
  | comma => "','"
  | equals => "'='"
  | colon => "':'"
  | star => "'*'"
  | ellipsis => "'...'"
  | newline => "end of line"
  | eof => "end of file"

def endsLine : Token → Bool
  | newline | eof => true
  | _ => false

end Token
end SsaGraph
