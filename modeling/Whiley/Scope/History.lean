import Whiley.Scope

namespace Whiley.Scope

inductive Step
  | new (target : String) (indent : Indent) (initial : Dictionary Variable)
    (aliases lifetimes : List String) (inLoop : Bool)
  | derive (source target : String) (indent : Option Indent) (inLoop : Option Bool)
  | capture (source target : String) (captures : List Identifier)
  | declareVariable (source : String) (v : Variable)
  | declareLifetime (source : String) (i : Identifier)
  | declareAlias (source : String) (i : Identifier)
  | declareThis (source : String)
  | checkAvailable (source : String) (i : Identifier)
  | checkLifetime (source : String) (i : Identifier)
  | isVariable (source name : String)
  | isLifetime (source name : String)
  | isAlias (source name : String)
  | isAvailable (source name : String)
  | lookup (source name : String)
  | info (source : String)

inductive Answer
  | done
  | unknown (label : String)
  | refused (e : SyntaxError)
  | truth (b : Bool)
  | found (v : Option Variable)
  | info (indent : Indent) (inLoop : Bool)

abbrev Store := Dictionary Scope

namespace Store

def ask (store : Store) (label : String) (f : Scope → Answer) : Store × Answer :=
  match store.get? label with
  | none => (store, .unknown label)
  | some s => (store, f s)

def make (store : Store) (source target : String) (f : Scope → Except SyntaxError Scope) :
    Store × Answer :=
  match store.get? source with
  | none => (store, .unknown source)
  | some s =>
    match f s with
    | .ok s' => (store.put target s', .done)
    | .error e => (store, .refused e)

def check (store : Store) (source : String) (f : Scope → Except SyntaxError Unit) :
    Store × Answer :=
  store.ask source fun s =>
    match f s with
    | .ok () => .done
    | .error e => .refused e

def step (store : Store) : Step → Store × Answer
  | .new target indent initial aliases lifetimes inLoop =>
    (store.put target ⟨indent, inLoop, initial, aliases, lifetimes⟩, .done)
  | .derive source target indent inLoop =>
    store.make source target fun s =>
      .ok ((s.deeper (indent.getD s.indent)).looping (inLoop.getD s.inLoop))
  | .capture source target captures => store.make source target fun s => .ok (s.capturing captures)
  | .declareVariable source v => store.make source source (·.declareVariable v)
  | .declareLifetime source i => store.make source source (·.declareLifetime i)
  | .declareAlias source i => store.make source source fun s => .ok (s.declareAlias i)
  | .declareThis source => store.make source source fun s => .ok s.declareThis
  | .checkAvailable source i => store.check source (·.checkAvailable i)
  | .checkLifetime source i => store.check source (·.checkLifetime i)
  | .isVariable source name => store.ask source fun s => .truth (s.isVariable name)
  | .isLifetime source name => store.ask source fun s => .truth (s.isLifetime name)
  | .isAlias source name => store.ask source fun s => .truth (s.isAlias name)
  | .isAvailable source name => store.ask source fun s => .truth (s.isAvailable name)
  | .lookup source name => store.ask source fun s => .found (s.lookup name)
  | .info source => store.ask source fun s => .info s.indent s.inLoop

def run (store : Store) : List Step → Store × List Answer
  | [] => (store, [])
  | step :: steps =>
    let (store, answer) := store.step step
    let (store, answers) := store.run steps
    (store, answer :: answers)

end Store

end Whiley.Scope
