import PromptChain.Fault

/-!
# The outline of a chain

A tree is drawn with one line a node, in its order. A line is indented by four characters a level,
with a bar where a node above has a later sibling, and a connector that tells the last child from
the others.
-/

set_option autoImplicit false

namespace PromptChain

def Leaf.details : Leaf → String
  | prompt p => " -> " ++ p.outputKey
  | chat c => " (" ++ c.role ++ ") -> " ++ c.outputKey
  | api a => " " ++ a.method ++ " " ++ a.url ++ " -> " ++ a.outputKey
  | vectorSearch v => " " ++ v.database ++ " -> " ++ v.outputKey
  | reformat r => " -> " ++ ", ".intercalate (Entries.keys r.formatters)
  | transform t => " -> " ++ ", ".intercalate t.outputKeys

namespace Node

def heading (n : Node) : String := n.kind.name ++ " #" ++ idText n.id

def details : Node → String
  | leaf l => l.details
  | sequence _ _ _ _ => ""
  | choice _ key _ _ => " on '" ++ key ++ "'"

def connector (last : Bool) : String := if last then "└── " else "├── "

def continuation (last : Bool) : String := if last then "    " else "│   "

def line (margin label : String) (last : Bool) (n : Node) : String :=
  margin ++ connector last ++ label ++ n.heading ++ n.details

def labelText (key : String) : String := "[" ++ key ++ "] "

mutual

def outlineLines (margin label : String) (last : Bool) : Node → List String
  | leaf l => [line margin label last (leaf l)]
  | sequence i ins outs steps =>
    line margin label last (sequence i ins outs steps) ::
      stepLines (margin ++ continuation last) steps
  | choice i key branches fallback =>
    line margin label last (choice i key branches fallback) ::
      (branchLines (margin ++ continuation last) fallback.isNone branches ++
        fallbackLines (margin ++ continuation last) fallback)

def stepLines (margin : String) : List Node → List String
  | [] => []
  | n :: ns => outlineLines margin "" ns.isEmpty n ++ stepLines margin ns

/-- The lines of the branches; the last one is a last child only if no fallback follows. -/
def branchLines (margin : String) (closing : Bool) : List (String × Node) → List String
  | [] => []
  | (k, n) :: bs =>
    outlineLines margin (labelText k) (closing && bs.isEmpty) n ++ branchLines margin closing bs

def fallbackLines (margin : String) : Option Node → List String
  | none => []
  | some n => outlineLines margin (labelText "default") true n

end

def outline (n : Node) : String := String.join ((n.outlineLines "" "" true).map (· ++ "\n"))

end Node

end PromptChain
