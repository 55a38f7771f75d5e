namespace SqlStatement.Text

/-- The text with every ASCII letter in upper case. -/
def upper (s : String) : String :=
  String.ofList (s.toList.map Char.toUpper)

/-- Two texts that differ at most in the case of ASCII letters. Every other
    character stands for itself. -/
def sameWord (a b : String) : Bool :=
  upper a == upper b

end SqlStatement.Text
