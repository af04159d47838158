-- YAML documents as trees.
import Backend.Yaml.Resolve
import Backend.Yaml.Token

namespace Backend.Yaml

/-- A node with its tag in short form. An alias names the anchored node by its number, because
names can be given again. -/
inductive Node where
  | scalar (mark : Mark) (tag : String) (style : ScalarStyle) (value : String)
  | seq (mark : Mark) (tag : String) (flow : Bool) (items : List Node)
  | map (mark : Mark) (tag : String) (flow : Bool) (entries : List (Node × Node))
  | alias (mark : Mark) (name : String) (target : Nat)

/-- A document: its root, and the anchored nodes by number. -/
structure Document where
  root : Node
  anchors : List (Nat × Node)

namespace Node

def mark : Node → Mark
  | .scalar m _ _ _ => m
  | .seq m _ _ _ => m
  | .map m _ _ _ => m
  | .alias m _ _ => m

/-- The line of a node, counted from one. -/
def line (n : Node) : Nat := n.mark.line + 1

/-- The column of a node, counted from one. -/
def column (n : Node) : Nat := n.mark.column + 1

def tag : Node → String
  | .scalar _ t _ _ => t
  | .seq _ t _ _ => t
  | .map _ t _ _ => t
  | .alias _ _ _ => ""

/-- The text of a scalar or the name of an alias. -/
def text : Node → String
  | .scalar _ _ _ v => v
  | .alias _ name _ => name
  | _ => ""

/-- Both nodes are scalars, sequences, mappings or aliases. -/
def sameKind : Node → Node → Bool
  | .scalar _ _ _ _, .scalar _ _ _ _ => true
  | .seq _ _ _ _, .seq _ _ _ _ => true
  | .map _ _ _ _, .map _ _ _ _ => true
  | .alias _ _ _, .alias _ _ _ => true
  | _, _ => false

def isNull (n : Node) : Bool := n.tag == nullTag

/-- The key that merges another mapping. -/
def isMergeKey : Node → Bool
  | .scalar _ t _ v => v == "<<" && t == mergeTag
  | _ => false

end Node

end Backend.Yaml
