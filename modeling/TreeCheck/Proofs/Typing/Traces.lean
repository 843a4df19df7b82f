import TreeCheck.Proofs.Ty.Proper
import TreeCheck.Proofs.Typing.Footprints

/-!
The traces of inference: what the check of each node adds to the literals that wait for their types and
to the type arguments that are chosen. A trace goes through every node once, so a literal waits in the
end with the sign that is written before it, and no node chooses type arguments twice. What is said of
chosen type arguments is said of the notes that there are in the end, since a node has its type only
after all that is below it.
-/

namespace TreeCheck

/-- Whether a node puts literals into the queue, or changes one that waits there. -/
def TreeNode.pends : TreeNode → Bool
  | .expr (.int ..) => true
  | .expr (.unary _ .neg (.int ..)) => true
  | .pattern (.literal _ (.int _)) => true
  | .pattern (.range ..) => true
  | _ => false

/-- The integers that are written at the nodes of a tree, by the numbers of the nodes. A minus sign right
before a literal belongs to it. -/
inductive TreeNode.Writes (nodes : List TreeNode) : Nat → Int → Prop
  | bare {info : NodeInfo} {value : Int} {suffix : String} (inside : .expr (.int info value suffix) ∈ nodes)
      (unsigned : ∀ sign, .expr (.unary sign .neg (.int info value suffix)) ∉ nodes) :
      Writes nodes info.id value
  | negated {sign info : NodeInfo} {value : Int} {suffix : String}
      (inside : .expr (.unary sign .neg (.int info value suffix)) ∈ nodes) : Writes nodes info.id (-value)
  | literal {info : NodeInfo} {value : Int} (inside : .pattern (.literal info (.int value)) ∈ nodes) :
      Writes nodes info.id value
  | low {info : NodeInfo} {low high : Int} {inclusive : Bool}
      (inside : .pattern (.range info low high inclusive) ∈ nodes) : Writes nodes info.id low
  | high {info : NodeInfo} {low high : Int} {inclusive : Bool}
      (inside : .pattern (.range info low high inclusive) ∈ nodes) : Writes nodes info.id high

namespace TreeNode.Writes

variable {nodes more : List TreeNode} {id : Nat} {value : Int}

theorem split (writes : Writes (nodes ++ more) id value) : Writes nodes id value ∨ Writes more id value := by
  cases writes with
  | bare inside unsigned =>
    refine (List.mem_append.mp inside).imp (fun before => .bare before fun sign => ?_)
      fun behind => .bare behind fun sign => ?_
    · exact fun signed => unsigned sign (List.mem_append_left _ signed)
    · exact fun signed => unsigned sign (List.mem_append_right _ signed)
  | negated inside => exact (List.mem_append.mp inside).imp .negated .negated
  | literal inside => exact (List.mem_append.mp inside).imp .literal .literal
  | low inside => exact (List.mem_append.mp inside).imp .low .low
  | high inside => exact (List.mem_append.mp inside).imp .high .high

theorem perm (writes : Writes nodes id value) (same : nodes.Perm more) : Writes more id value := by
  cases writes with
  | bare inside unsigned => exact .bare (same.mem_iff.mp inside) fun sign => mt same.mem_iff.mpr (unsigned sign)
  | negated inside => exact .negated (same.mem_iff.mp inside)
  | literal inside => exact .literal (same.mem_iff.mp inside)
  | low inside => exact .low (same.mem_iff.mp inside)
  | high inside => exact .high (same.mem_iff.mp inside)

theorem pends (writes : Writes nodes id value) : ∃ node ∈ nodes, node.pends = true := by
  cases writes with
  | bare inside | negated inside | literal inside | low inside | high inside => exact ⟨_, inside, rfl⟩

end TreeNode.Writes

theorem Signature.type_instantiate (signature : Signature) (params : List String) (args : List Ty) :
    signature.type.instantiate params args = .function
      (signature.params.map fun p => p.type.instantiate params args) (signature.result.instantiate params args) := by
  simp [Signature.type, Ty.instantiate, Ty.replace, Ty.replaceAll_map]

namespace Typing

def signed (id : Nat) (span : Span) (value : Int) (queue : List PendingLiteral) : List PendingLiteral :=
  queue.map fun lit => if lit.id == id then ⟨id, span, -value⟩ else lit

/-- What nodes do to the literals that wait for their types. -/
inductive Queues : List TreeNode → List PendingLiteral → List PendingLiteral → Prop
  | int (info : NodeInfo) (value : Int) (suffix : String) (queue : List PendingLiteral) :
      Queues [.expr (.int info value suffix)] queue (queue ++ [⟨info.id, info.span, value⟩])
  | negated (sign info : NodeInfo) (value : Int) (suffix : String) (queue : List PendingLiteral) :
      Queues [.expr (.unary sign .neg (.int info value suffix)), .expr (.int info value suffix)] queue
        (signed info.id sign.span value (queue ++ [⟨info.id, info.span, value⟩]))
  | literal (info : NodeInfo) (value : Int) (queue : List PendingLiteral) :
      Queues [.pattern (.literal info (.int value))] queue (queue ++ [⟨info.id, info.span, value⟩])
  | range (info : NodeInfo) (low high : Int) (inclusive : Bool) (queue : List PendingLiteral) :
      Queues [.pattern (.range info low high inclusive)] queue
        (queue ++ [⟨info.id, info.span, low⟩] ++ [⟨info.id, info.span, high⟩])
  | plain {node : TreeNode} (quiet : node.pends = false) (queue : List PendingLiteral) :
      Queues [node] queue queue

/-- Type arguments that an expression chooses: for a declared function or method, or for the struct or
the enum of which it constructs a value. There is one for each type parameter, and the types that are
noted in the end are the declared ones with them. -/
inductive Chosen (ctx : Context) (last : Annotations) (args : List Ty) : Expr → Prop
  | name {info : NodeInfo} {name : String} {signature : Signature}
      (known : ctx.table.function? name = some signature) (sized : args.length = signature.typeParams.length)
      (called : (info.id, signature) ∈ last.calls)
      (typed : (info.id, signature.type.instantiate signature.typeParams args) ∈ last.types) :
      Chosen ctx last args (.ident info name)
  | call {info callee : NodeInfo} {name : String} {operands : List Expr} {signature : Signature}
      (known : ctx.table.function? name = some signature) (sized : args.length = signature.typeParams.length)
      (called : (info.id, signature) ∈ last.calls)
      (named : (callee.id, signature.type.instantiate signature.typeParams args) ∈ last.types)
      (typed : (info.id, signature.result.instantiate signature.typeParams args) ∈ last.types) :
      Chosen ctx last args (.call info (.ident callee name) operands)
  | method {info : NodeInfo} {receiver : Expr} {type name : String} {operands : List Expr} {signature : Signature}
      (known : ctx.table.method? type name = some signature) (sized : args.length = signature.typeParams.length)
      (called : (info.id, signature) ∈ last.methods)
      (typed : (info.id, signature.result.instantiate signature.typeParams args) ∈ last.types) :
      Chosen ctx last args (.methodCall info receiver name operands)
  | struct {info : NodeInfo} {name : String} {fields : List FieldInit} {d : StructDef}
      (known : d ∈ ctx.table.decls.structs) (sized : args.length = d.params.length)
      (typed : (info.id, .struct d.name args) ∈ last.types) : Chosen ctx last args (.struct info name fields)
  | variant {info : NodeInfo} {enum variant : String} {operands : List Expr} {fields : List FieldInit}
      {found : VariantRef} (sized : args.length = found.enum.params.length)
      (noted : (info.id, found) ∈ last.variants) (typed : (info.id, .enum found.enum.name args) ∈ last.types) :
      Chosen ctx last args (.variant info enum variant operands fields)

theorem Chosen.not_pends {ctx : Context} {last : Annotations} {args : List Ty} {e : Expr}
    (chosen : Chosen ctx last args e) : (TreeNode.expr e).pends = false := by
  cases chosen <;> rfl

/-- The nodes that a check goes through, each with what it does to literals and type arguments. -/
inductive Trace (ctx : Context) (last : Annotations) : List TreeNode → State → State → Prop
  | still {s s' : State} (literals : s'.literals = s.literals)
      (instantiations : s'.notes.instantiations = s.notes.instantiations) (notes : s.notes.Extends s'.notes) :
      Trace ctx last [] s s'
  | queues {nodes : List TreeNode} {s s' : State} (queued : Queues nodes s.literals s'.literals)
      (instantiations : s'.notes.instantiations = s.notes.instantiations) (notes : s.notes.Extends s'.notes) :
      Trace ctx last nodes s s'
  | chooses {e : Expr} {args : List Ty} {s s' : State} (chosen : Chosen ctx last args e)
      (literals : s'.literals = s.literals)
      (instantiations : s'.notes.instantiations = (e.id, args) :: s.notes.instantiations)
      (notes : s.notes.Extends s'.notes) : Trace ctx last [.expr e] s s'
  | append {nodes more : List TreeNode} {s s' s'' : State} (first : Trace ctx last nodes s s')
      (rest : Trace ctx last more s' s'') : Trace ctx last (nodes ++ more) s s''
  | perm {nodes more : List TreeNode} {s s' : State} (trace : Trace ctx last nodes s s') (same : nodes.Perm more) :
      Trace ctx last more s s'

namespace Queues

open TreeNode

variable {nodes : List TreeNode} {queue queue' : List PendingLiteral}

/-- A literal below a minus sign is checked with it. -/
theorem operand (queues : Queues nodes queue queue') {sign info : NodeInfo} {value : Int} {suffix : String}
    (inside : .expr (.unary sign .neg (.int info value suffix)) ∈ nodes) :
    .expr (.int info value suffix) ∈ nodes := by
  cases queues with
  | negated => simp_all
  | plain quiet =>
    rw [← List.mem_singleton.mp inside] at quiet
    cases quiet
  | int | literal | range => simp at inside

/-- A literal of another node goes on waiting. -/
theorem keeps (queues : Queues nodes queue queue') {lit : PendingLiteral} (member : lit ∈ queue)
    (other : lit.id ∉ ids nodes) : lit ∈ queue' := by
  cases queues with
  | int | literal => exact List.mem_append_left _ member
  | range => exact List.mem_append_left _ (List.mem_append_left _ member)
  | negated sign info value suffix =>
    refine List.mem_map.mpr ⟨lit, List.mem_append_left _ member, if_neg fun same => other ?_⟩
    rw [eq_of_beq same]
    exact List.mem_cons_of_mem _ List.mem_cons_self
  | plain => exact member

theorem waits (queues : Queues nodes queue queue') {id : Nat} {value : Int} (writes : Writes nodes id value) :
    ∃ lit ∈ queue', lit.id = id ∧ lit.value = value := by
  cases queues with
  | int info n suffix =>
    refine ⟨⟨info.id, info.span, n⟩, by simp, ?_⟩
    cases writes <;> simp_all
  | negated sign info n suffix =>
    refine ⟨⟨info.id, sign.span, -n⟩, by simp [signed], ?_⟩
    cases writes <;> simp_all
  | literal info n =>
    refine ⟨⟨info.id, info.span, n⟩, by simp, ?_⟩
    cases writes <;> simp_all
  | range info low high inclusive =>
    cases writes with
    | low inside => exact ⟨⟨info.id, info.span, low⟩, by simp_all⟩
    | high inside => exact ⟨⟨info.id, info.span, high⟩, by simp_all⟩
    | bare inside | negated inside | literal inside => simp at inside
  | plain quiet =>
    obtain ⟨node, inside, pends⟩ := writes.pends
    rw [List.mem_singleton.mp inside, quiet] at pends
    cases pends

end Queues

namespace Trace

open TreeNode

variable {ctx : Context} {last : Annotations} {nodes : List TreeNode} {s s' : State}

theorem notes (trace : Trace ctx last nodes s s') : s.notes.Extends s'.notes := by
  induction trace with
  | still _ _ notes | queues _ _ notes | chooses _ _ _ notes => exact notes
  | append _ _ ih ih' => exact ih.trans ih'
  | perm _ _ ih => exact ih

/-- A trace, and a step before it that goes through no node. -/
theorem since {first : State} (trace : Trace ctx last nodes s s') (literals : s.literals = first.literals)
    (instantiations : s.notes.instantiations = first.notes.instantiations) (notes : first.notes.Extends s.notes) :
    Trace ctx last nodes first s' := (Trace.still literals instantiations notes).append trace

/-! ### Type arguments -/

/-- Each node chooses type arguments at most once. -/
theorem once (trace : Trace ctx last nodes s s') : ∃ new : NodeTable (List Ty),
    s'.notes.instantiations = new ++ s.notes.instantiations ∧ ∀ id, new.keys.count id ≤ (ids nodes).count id := by
  induction trace with
  | still _ same | queues _ same => exact ⟨[], same, by simp⟩
  | @chooses e args _ _ _ _ added =>
    exact ⟨[(e.id, args)], added, fun _ => Nat.le_refl _⟩
  | append _ _ ih ih' =>
    obtain ⟨early, same, few⟩ := ih
    obtain ⟨late, same', few'⟩ := ih'
    refine ⟨late ++ early, by rw [same', same, List.append_assoc], fun id => ?_⟩
    have := few id
    have := few' id
    simp only [NodeTable.keys_append, List.count_append, ids_append]
    omega
  | perm _ same ih =>
    obtain ⟨new, added, few⟩ := ih
    exact ⟨new, added, fun id => (few id).trans_eq ((same.filterMap TreeNode.id?).count_eq id)⟩

theorem chosen (trace : Trace ctx last nodes s s') {id : Nat} {args : List Ty}
    (member : (id, args) ∈ s'.notes.instantiations) : (id, args) ∈ s.notes.instantiations ∨
      ∃ e, .expr e ∈ nodes ∧ e.id = id ∧ Chosen ctx last args e := by
  induction trace with
  | still _ same | queues _ same => exact .inl (same ▸ member)
  | @chooses e args' _ _ chosen _ added =>
    rcases List.mem_cons.mp (added ▸ member) with first | old
    · obtain ⟨rfl, rfl⟩ := Prod.mk.inj first
      exact .inr ⟨e, List.mem_singleton_self _, rfl, chosen⟩
    · exact .inl old
  | append _ _ ih ih' =>
    rcases ih' member with old | ⟨e, inside, own⟩
    · exact (ih old).imp_right fun ⟨e, inside, own⟩ => ⟨e, List.mem_append_left _ inside, own⟩
    · exact .inr ⟨e, List.mem_append_right _ inside, own⟩
  | perm _ same ih => exact (ih member).imp_right fun ⟨e, inside, own⟩ => ⟨e, same.mem_iff.mp inside, own⟩

/-! ### Literals -/

/-- A literal below a minus sign is checked with it. -/
theorem operand (trace : Trace ctx last nodes s s') {sign info : NodeInfo} {value : Int} {suffix : String}
    (inside : .expr (.unary sign .neg (.int info value suffix)) ∈ nodes) :
    .expr (.int info value suffix) ∈ nodes := by
  induction trace with
  | still => cases inside
  | queues queued => exact queued.operand inside
  | chooses chosen =>
    obtain rfl := TreeNode.expr.inj (List.mem_singleton.mp inside)
    cases chosen
  | append _ _ ih ih' => exact List.mem_append.mpr ((List.mem_append.mp inside).imp ih ih')
  | perm _ same ih => exact same.mem_iff.mp (ih (same.mem_iff.mpr inside))

theorem mem_ids (trace : Trace ctx last nodes s s') {id : Nat} {value : Int} (writes : Writes nodes id value) :
    id ∈ ids nodes := by
  cases writes with
  | bare inside => exact List.mem_filterMap.mpr ⟨_, inside, rfl⟩
  | negated inside => exact List.mem_filterMap.mpr ⟨_, trace.operand inside, rfl⟩
  | literal inside => exact List.mem_filterMap.mpr ⟨_, inside, rfl⟩
  | low inside => exact List.mem_filterMap.mpr ⟨_, inside, rfl⟩
  | high inside => exact List.mem_filterMap.mpr ⟨_, inside, rfl⟩

/-- A literal goes on waiting while other nodes are checked. -/
theorem keeps (trace : Trace ctx last nodes s s') {lit : PendingLiteral} (member : lit ∈ s.literals)
    (other : lit.id ∉ ids nodes) : lit ∈ s'.literals := by
  induction trace with
  | still literals | chooses _ literals => exact literals ▸ member
  | queues queued => exact queued.keeps member other
  | append _ _ ih ih' =>
    rw [ids_append, List.mem_append, not_or] at other
    exact ih' (ih member other.1) other.2
  | perm _ same ih => exact ih member (mt (same.filterMap TreeNode.id?).mem_iff.mp other)

/-- What is written at a node waits with its sign to be compared with the type of the node. -/
theorem queued (trace : Trace ctx last nodes s s') (unique : (ids nodes).Nodup) {id : Nat} {value : Int}
    (writes : Writes nodes id value) : ∃ lit ∈ s'.literals, lit.id = id ∧ lit.value = value := by
  induction trace with
  | queues queued => exact queued.waits writes
  | still =>
    obtain ⟨node, inside, -⟩ := writes.pends
    cases inside
  | chooses chosen =>
    obtain ⟨node, inside, pends⟩ := writes.pends
    rw [List.mem_singleton.mp inside, chosen.not_pends] at pends
    cases pends
  | append first rest ih ih' =>
    rw [ids_append] at unique
    obtain ⟨early, late, apart⟩ := List.nodup_append.mp unique
    rcases writes.split with before | behind
    · obtain ⟨lit, waits, rfl, rfl⟩ := ih early before
      have own := first.mem_ids before
      exact ⟨lit, rest.keeps waits fun again => apart _ own _ again rfl, rfl, rfl⟩
    · exact ih' late behind
  | perm _ same ih => exact ih ((same.filterMap TreeNode.id?).nodup_iff.mpr unique) (writes.perm same.symm)

end Trace

end Typing

end TreeCheck
