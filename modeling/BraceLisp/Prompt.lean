/-!
The prompt of an interactive session: its texts, the keys that are bound for it, and the file
that keeps what was typed.
-/

namespace BraceLisp.Prompt

/-- The places at which a prompt shows a text. A search in the history shows what is searched
for, and whether nothing was found. -/
inductive Place where
  | left
  | right
  | indicator
  | continuation
  | search (failing : Bool) (term : String)
  deriving DecidableEq, Repr

def text : Place → String
  | .left => "tlisp> "
  | .right => ""
  | .indicator => ""
  | .continuation => "  ...> "
  | .search failing term =>
    "(" ++ (if failing then "failing " else "") ++ "reverse-search: " ++ term ++ ") "

inductive Modifier where
  | none
  | alt
  | control
  | shift
  deriving DecidableEq, Repr

inductive Key where
  | tab
  | enter
  | escape
  | char (c : Char)
  deriving DecidableEq, Repr

/-- What a key does. The menu of completions opens, or goes on to its next entry. -/
inductive Action where
  | completeOrNext
  | insertNewline
  deriving DecidableEq, Repr

/-- What a key is bound to. -/
def binding? : Modifier → Key → Option Action
  | .none, .tab => some .completeOrNext
  | .alt, .enter => some .insertNewline
  | _, _ => none

/-- A path below another one. -/
def join (base path : String) : String :=
  if base.isEmpty || base.toList.getLast? = some '/' then base ++ path else base ++ "/" ++ path

/-- The directory for the data of programs: the one that is set, if its path is absolute, and
otherwise the usual one in the home directory. -/
def dataDirectory (home : String) (dataHome : Option String) : String :=
  match dataHome with
  | some path => if path.toList.head? = some '/' then path else join home ".local/share"
  | none => join home ".local/share"

/-- The file that keeps what was typed. -/
def historyFile (home : String) (dataHome : Option String) : String :=
  join (join (dataDirectory home dataHome) "tlisp") "history.txt"

end BraceLisp.Prompt
