import LambdaScript.Main
import LambdaScript.Proofs.Copies
import LambdaScript.Proofs.Dependencies
import LambdaScript.Proofs.Interruptions
import LambdaScript.Proofs.Memories
import LambdaScript.Proofs.Soundness
import LambdaScript.Proofs.Substitution
import LambdaScript.Proofs.Triangular
import LambdaScript.Workbench
