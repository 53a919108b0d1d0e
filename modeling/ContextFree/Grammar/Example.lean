/-!
# An example grammar

The notation of a grammar in binary form that generates `+ b aᵏ b cᵏ`.
-/

namespace ContextFree.Grammar

/-- The text of the example. -/
def exampleText : String := "
X -> +
A -> a
B -> b
C -> c
S -> X T
T -> B V
V -> A E | b
E -> V C
"

end ContextFree.Grammar
