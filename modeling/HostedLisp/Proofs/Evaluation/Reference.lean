import HostedLisp.Eval

namespace HostedLisp

namespace Chain

def insertTop (b : Binding) : Chain → Chain
  | [] => []
  | bs :: outer => bs.insert b :: outer

def bindAll (chain : Chain) : List (String × Value) → Except Failure Chain
  | [] => .ok chain
  | b :: rest => do bindAll (chain.insertTop (← Binding.ofText? b.1 b.2)) rest

/-- What a scope that a primitive names sees. -/
def ofRef (chain : Chain) : ScopeRef → Except Failure (Option Chain)
  | .absent => .ok none
  | .here => .ok (some chain)
  | .parent r => do
      match ← ofRef chain r with
      | none => .error (.attributeError "'NoneType' object has no attribute 'parent'")
      -- The root is the only scope without one around it.
      | some c => return if c.tail.isEmpty then none else some c.tail
  | .child r bindings => do
      let parent ← ofRef chain r
      return some (← bindAll ([] :: parent.getD []) bindings)

end Chain

/-- A computation over the store in scopes that it does not change. -/
abbrev Scoped (α : Type) := Chain → Store → Outcome α × Store

namespace Scoped

variable {α β : Type}

def pure (a : α) : Scoped α := fun _ s => (.ok a, s)

def bind (first : Scoped α) (second : α → Scoped β) : Scoped β := fun chain s =>
  match first chain s with
  | (.ok a, s') => second a chain s'
  | (.failed f, s') => (.failed f, s')
  | (.unfinished, s') => (.unfinished, s')

instance : Monad Scoped where
  pure := pure
  bind := bind

def fail (f : Failure) : Scoped α := fun _ s => (.failed f, s)

def unfinished : Scoped α := fun _ s => (.unfinished, s)

def ofEffect (e : Effect α) : Scoped α := fun _ s =>
  let (r, s') := e s
  (.ofExcept r, s')

def lookup (name : String) : Scoped Value := fun chain s =>
  match chain.lookup? name with
  | some b => (.ok b.value, s)
  | none => (.failed (.undefinedIdentifier name), s)

def mapAll (f : α → Scoped β) : List α → Scoped (List β)
  | [] => pure []
  | x :: xs => bind (f x) fun y => bind (mapAll f xs) fun ys => pure (y :: ys)

def inside (r : ScopeRef) (body : Scoped α) : Scoped α := fun chain s =>
  match chain.ofRef r with
  -- With no scope at all a node is evaluated in the current one.
  | .ok c => body (c.getD chain) s
  | .error f => (.failed f, s)

end Scoped

/-- A computation over the store that can bind names in the innermost scope of its chain. -/
abbrev Block (α : Type) := Chain → Store → Outcome α × Chain × Store

namespace Block

variable {α β : Type}

def pure (a : α) : Block α := fun chain s => (.ok a, chain, s)

def bind (first : Block α) (second : α → Block β) : Block β := fun chain s =>
  match first chain s with
  | (.ok a, chain', s') => second a chain' s'
  | (.failed f, chain', s') => (.failed f, chain', s')
  | (.unfinished, chain', s') => (.unfinished, chain', s')

instance : Monad Block where
  pure := pure
  bind := bind

def fail (f : Failure) : Block α := fun chain s => (.failed f, chain, s)

def unfinished : Block α := fun chain s => (.unfinished, chain, s)

def ofScoped (c : Scoped α) : Block α := fun chain s =>
  let (r, s') := c chain s
  (r, chain, s')

def chain : Block Chain := fun chain s => (.ok chain, chain, s)

def store : Block Store := fun chain s => (.ok s, chain, s)

def bindHere (name : String) (value : Value) : Block Unit := fun chain s =>
  match Binding.ofText? name value with
  | .ok b => (.ok (), chain.insertTop b, s)
  | .error f => (.failed f, chain, s)

def mapAll (f : α → Block β) : List α → Block (List β)
  | [] => pure []
  | x :: xs => bind (f x) fun y => bind (mapAll f xs) fun ys => pure (y :: ys)

def recover (body : Block α) (handler : Failure → Block α) : Block α := fun chain s =>
  match body chain s with
  | (.ok a, chain', s') => (.ok a, chain', s')
  -- What the body bound and did before it failed stays.
  | (.failed f, chain', s') =>
      if f.isEvaluation then handler f chain' s' else (.failed f, chain', s')
  | (.unfinished, chain', s') => (.unfinished, chain', s')

/-- What a block computes, its bindings forgotten. -/
def run (b : Block α) : Scoped α := fun chain s =>
  let (r, _, s') := b chain s
  (r, s')

def inChild (b : Block α) : Scoped α := fun chain s =>
  b.run ([] :: chain) s

end Block

namespace Setting

/-- Resolves a member of a target that is brought up to date. -/
def memberOf (env : Setting) (target : Value) (name : String) (types : Option (List ValueType)) :
    Effect (Option Member) := do
  let s ← Effect.read
  env.host.resolveMember (s.settle target) name types

/-- Calls a member with arguments that are brought up to date. -/
def memberValue (env : Setting) (member : Member) (arguments : List Value) : Effect Value := do
  let s ← Effect.read
  let v ← env.host.call { member with target := s.settle member.target } (s.settleAll arguments)
  Effect.adopt v

def staticValue (env : Setting) (value : Node → Scoped Value) (path : List String)
    (member : String) (parameters : List Node) : Scoped Value := do
  match ← Scoped.ofEffect (env.host.resolveType path) with
  | none => Scoped.fail (.unresolvedType (Node.dotted path))
  | some target =>
      let arguments ← Scoped.mapAll value parameters
      match ← Scoped.ofEffect (env.memberOf target member none) with
      | none => Scoped.fail (.noStaticMember member (Node.dotted path))
      | some m => Scoped.ofEffect (env.memberValue m arguments)

def instanceValue (env : Setting) (value : Node → Scoped Value) (member : String)
    (parameters : List Node) : Scoped Value := do
  match parameters with
  | [] => Scoped.fail (.missingReceiver member)
  | x :: rest =>
      let receiver ← value x
      if receiver.isNull then
        Scoped.fail (.nullReceiver member)
      else
        let arguments ← Scoped.mapAll value rest
        let types := arguments.map Value.type
        match ← Scoped.ofEffect (env.memberOf receiver member (some types)) with
        | none => Scoped.fail (.noMember member receiver.type)
        | some m => Scoped.ofEffect (env.memberValue m arguments)

mutual

def value (env : Setting) : Nat → Node → Scoped Value
  | 0, _ => Scoped.unfinished
  | fuel + 1, x =>
      match x with
      | .error message span => Scoped.fail (.ofErrorNode message span)
      | .literal value _ => pure (Value.ofLiteral value)
      | .identifier name _ => Scoped.lookup name
      | .list xs _ => do
          let vs ← Scoped.mapAll (value env fuel) xs
          Scoped.ofEffect (Effect.adopt (.listOf vs))
      | .quote .. => pure (.code x)
      | .invocation head parameters span => valueOfInvocation env fuel ⟨head, parameters, span⟩
      | .instanceMember .. => Scoped.fail (notAnExpression (.code x))
      | .staticMember .. => Scoped.fail (notAnExpression (.code x))

def valueOfInvocation (env : Setting) : Nat → Invocation → Scoped Value
  | 0, _ => Scoped.unfinished
  | fuel + 1, e =>
      match e.head with
      | .identifier name _ =>
          match env.primitives.find? name with
          | none => Scoped.fail (.undefinedFunction name)
          | some p => (valueOfAction env fuel (p e)).run
      | .staticMember path member _ => env.staticValue (value env fuel) path member e.parameters
      | .instanceMember member _ => env.instanceValue (value env fuel) member e.parameters
      | _ => Scoped.fail (.invalidHead e.head.headName)

def valueOfAction (env : Setting) : Nat → Action → Block Value
  | 0, _ => Block.unfinished
  | fuel + 1, a =>
      match a with
      | .done v => Block.ofScoped (Scoped.ofEffect (Effect.adopt v))
      | .fail f => Block.fail f
      | .eval x next => do
          let v ← Block.ofScoped (value env fuel x)
          let v ← Block.ofScoped (Scoped.ofEffect (Effect.settle v))
          valueOfAction env fuel (next v)
      | .evalIn r x next => do
          let v ← Block.ofScoped (Scoped.inside r (value env fuel x))
          let v ← Block.ofScoped (Scoped.ofEffect (Effect.settle v))
          valueOfAction env fuel (next v)
      | .invoke x next => do
          let v ← Block.ofScoped (valueOfInvokedNode env fuel x)
          let v ← Block.ofScoped (Scoped.ofEffect (Effect.settle v))
          valueOfAction env fuel (next v)
      | .within bindings body next => do
          let v ← Block.ofScoped <| Block.inChild do
            let _ ← Block.mapAll (fun (b : String × Value) => Block.bindHere b.1 b.2) bindings
            valueOfAction env fuel body
          valueOfAction env fuel (next v)
      | .bind name v next => do
          Block.bindHere name v
          valueOfAction env fuel next
      | .recover body handler next => do
          let v ← Block.recover (valueOfAction env fuel body) fun f =>
            valueOfAction env fuel (handler f)
          valueOfAction env fuel (next v)
      | .settle vs next => do
          let s ← Block.store
          valueOfAction env fuel (next (s.settleAll vs))
      | .view next => do
          let chain ← Block.chain
          let s ← Block.store
          valueOfAction env fuel (next (chain.flatten.map fun e => (e.1, s.settle e.2)))
      -- There are no running calls to show.
      | .running next => valueOfAction env fuel (next [])
      | .effect computation next => do
          let v ← Block.ofScoped (Scoped.ofEffect computation)
          let v ← Block.ofScoped (Scoped.ofEffect (Effect.adopt v))
          valueOfAction env fuel (next v)
      | .note v next => do
          Block.ofScoped (Scoped.ofEffect (Effect.modify fun s => s.record (.noted v)))
          valueOfAction env fuel next
      | .trace _ next => valueOfAction env fuel next

def valueOfInvokedNode (env : Setting) : Nat → Node → Scoped Value
  | 0, _ => Scoped.unfinished
  | fuel + 1, x =>
      match x with
      | .invocation head parameters span => valueOfInvocation env fuel ⟨head, parameters, span⟩
      | x =>
          Scoped.fail (.attributeError ("'" ++ (Value.code x).type.name ++
            "' object has no attribute 'identifier'"))

end

end Setting

namespace Action

/-- Whether an action asks for nothing that a pure evaluator lacks: it does not look at the running
calls, and it binds names only inside a block of its own. -/
def Admissible (inBlock : Bool) : Action → Prop
  | done _ => True
  | fail _ => True
  | eval _ next => ∀ v, Admissible inBlock (next v)
  | evalIn _ _ next => ∀ v, Admissible inBlock (next v)
  | invoke _ next => ∀ v, Admissible inBlock (next v)
  | within _ body next => Admissible true body ∧ ∀ v, Admissible inBlock (next v)
  | bind _ _ next => inBlock = true ∧ Admissible inBlock next
  | recover body handler next =>
      Admissible inBlock body ∧ (∀ f, Admissible inBlock (handler f)) ∧
        ∀ v, Admissible inBlock (next v)
  | settle _ next => ∀ vs, Admissible inBlock (next vs)
  | view next => ∀ names, Admissible inBlock (next names)
  | running _ => False
  | effect _ next => ∀ v, Admissible inBlock (next v)
  | note _ next => Admissible inBlock next
  | trace _ next => Admissible inBlock next

end Action

end HostedLisp
