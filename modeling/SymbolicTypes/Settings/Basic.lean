namespace SymbolicTypes

structure ResolverSettings where
  rootFallback : Bool := true
  /-- The method whose return type stands for undeclared properties; none if empty. -/
  magicGetter : String := "__get"
  deriving DecidableEq, Inhabited

structure ClassifierSettings where
  requireComplete : Bool := true
  deriving DecidableEq, Inhabited

structure LogSettings where
  filter : String := "warn"
  deriving DecidableEq, Inhabited

structure Settings where
  resolver : ResolverSettings := {}
  classifier : ClassifierSettings := {}
  log : LogSettings := {}
  deriving DecidableEq, Inhabited

end SymbolicTypes
