/-!
# Documents

The part of an XML document that a manifest uses: elements with their tag, their attributes, the
text before their first child, and their children. Tags and attributes in a namespace are written
with its name in braces in front.
-/

namespace Resumable.Xml

/-- An element of a document. -/
inductive Element where
  | mk (tag : String) (attributes : List (String × String)) (lead : String)
      (children : List Element)
deriving Repr, Inhabited

namespace Element

def tag : Element → String
  | mk t _ _ _ => t

/-- The attributes in the order in which they are written. -/
def attributes : Element → List (String × String)
  | mk _ a _ _ => a

def children : Element → List Element
  | mk _ _ _ cs => cs

def text? : Element → Option String
  | mk _ _ s _ => if s = "" then none else some s

def attribute? (e : Element) (name : String) : Option String := e.attributes.lookup name

def descend (e : Element) : List String → List Element
  | [] => [e]
  | tag :: path =>
    (e.children.filter (·.tag == tag)).flatMap (descend · path)

def find? (e : Element) (path : List String) : Option Element := (e.descend path).head?

end Element

end Resumable.Xml
