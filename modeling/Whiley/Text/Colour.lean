namespace Whiley.Text

def isCodeMark (c : Char) : Bool :=
  c.isDigit || c = ';' || c = '?'

def withoutCodesFrom (held : List Char) : List Char → List Char
  | [] => held.reverse
  | c :: cs =>
    if c = '\x1b' then held.reverse ++ withoutCodesFrom [c] cs
    else
      match held with
      | [] => c :: withoutCodesFrom [] cs
      | [e] => if c = '[' then withoutCodesFrom [c, e] cs else e :: c :: withoutCodesFrom [] cs
      | _ =>
        if isCodeMark c then withoutCodesFrom (c :: held) cs
        else if c.isAlpha then withoutCodesFrom [] cs
        else held.reverse ++ c :: withoutCodesFrom [] cs

def withoutCodes (s : String) : String :=
  String.ofList (withoutCodesFrom [] s.toList)

end Whiley.Text
