/-
  KernelPrep.Platform — the platforms that kernels are prepared for.

  A platform fixes the header included first, the words that stand for textures, and
  whether kernel textures need a variable at file scope.

  Main definitions:
    * `Platform`           — the platforms;
    * `Platform.ofName?`   — the platform of a name, in any case;
    * `Vocabulary`         — the words a platform header defines;
    * `Config`             — what is fixed for one file.
-/
import KernelPrep.Texture.Signature

namespace KernelPrep

/-- A target platform. -/
inductive Platform where
  | cuda | openCl
deriving DecidableEq, Repr, Inhabited

/-! ## §1. Vocabulary -/

/-- The words that a platform's header defines for textures. -/
structure Vocabulary where
  textureType : String
  surfaceType : String
  kernelTextureRaw : String
  kernelTextureNormalized : String
  kernelSurface : String
  textureGlobal : String
  surfaceGlobal : String
  textureBind : String
  surfaceBind : String
  readRaw : String
  readNormalized : String
deriving DecidableEq, Repr

namespace Vocabulary

/-- The word for a read mode. -/
def readMode (v : Vocabulary) : ReadMode → String
  | .raw => v.readRaw
  | .normalized => v.readNormalized

/-- The word that declares a type. -/
def typeWord (v : Vocabulary) : TextureKind → String
  | .texture => v.textureType
  | .surface => v.surfaceType

/-- The word for a kernel parameter; surfaces have one for all modes. -/
def paramWord (v : Vocabulary) : TextureKind → ReadMode → String
  | .surface, _ => v.kernelSurface
  | .texture, .raw => v.kernelTextureRaw
  | .texture, .normalized => v.kernelTextureNormalized

/-- The word that declares a variable at file scope. -/
def globalWord (v : Vocabulary) : TextureKind → String
  | .texture => v.textureGlobal
  | .surface => v.surfaceGlobal

/-- The word that binds a parameter to its variable. -/
def bindWord (v : Vocabulary) : TextureKind → String
  | .texture => v.textureBind
  | .surface => v.surfaceBind

end Vocabulary

namespace Platform

/-- The words of a platform. -/
def vocabulary : Platform → Vocabulary
  | .cuda =>
    { textureType := "__kpp_cuda_texture_type"
      surfaceType := "__kpp_cuda_surface_type"
      kernelTextureRaw := "__kpp_cuda_kernel_texture_raw"
      kernelTextureNormalized := "__kpp_cuda_kernel_texture_norm"
      kernelSurface := "__kpp_cuda_kernel_surface"
      textureGlobal := "__kpp_cuda_texture_global"
      surfaceGlobal := "__kpp_cuda_surface_global"
      textureBind := "__kpp_cuda_texture_bind"
      surfaceBind := "__kpp_cuda_surface_bind"
      readRaw := "cudaReadModeElementType"
      readNormalized := "cudaReadModeNormalizedFloat" }
  | .openCl =>
    { textureType := "__kpp_cl_texture_type"
      surfaceType := "__kpp_cl_surface_type"
      kernelTextureRaw := "__kpp_cl_kernel_texture_raw"
      kernelTextureNormalized := "__kpp_cl_kernel_texture_norm"
      kernelSurface := "__kpp_cl_kernel_surface"
      textureGlobal := "__kpp_cl_texture_global"
      surfaceGlobal := "__kpp_cl_surface_global"
      textureBind := "__kpp_cl_texture_bind"
      surfaceBind := "__kpp_cl_surface_bind"
      readRaw := "__kpp_cl_read_raw"
      readNormalized := "__kpp_cl_read_norm" }

/-! ## §2. Names and properties -/

/-- The name by which a platform is chosen. -/
def name : Platform → String
  | .cuda => "cuda"
  | .openCl => "opencl"

/-- The label of a platform in accounts of a configuration. -/
def label : Platform → String
  | .cuda => "Cuda"
  | .openCl => "OpenCl"

/-- The platform of a name, whose ASCII letters may be of either case; `cl` is short for
    `opencl`. -/
def ofName? (name : String) : Option Platform :=
  match name.map Char.toLower with
  | "cuda" => some .cuda
  | "opencl" | "cl" => some .openCl
  | _ => none

/-- What is said about a name that no platform has. -/
def unknownMessage (name : String) : String :=
  "unknown platform `" ++ name ++ "` (expected `cuda` or `opencl`)"

/-- The header that is included first unless another is chosen. -/
def defaultPrologue : Platform → String
  | .cuda => "kpp/prologue_cuda.h"
  | .openCl => "kpp/prologue_opencl.h"

/-- Whether the textures of a kernel need a variable at file scope and a binding in the
    kernel.  Otherwise they are plain arguments. -/
def bindsGlobals : Platform → Bool
  | .cuda => true
  | .openCl => false

end Platform

/-! ## §3. Configuration -/

/-- What is fixed for one file. -/
structure Config where
  /-- The name under which the file is reported. -/
  fileName : String := "<input>"
  platform : Platform := .cuda
  /-- The header to include instead of the platform's own. -/
  prologue? : Option String := none
  /-- Where the binding table goes, if it is wanted. -/
  tablePath? : Option String := none
deriving DecidableEq, Repr

namespace Config

/-- The header to include. -/
def prologue (config : Config) : String := config.prologue?.getD config.platform.defaultPrologue

/-- The words of the platform. -/
def vocabulary (config : Config) : Vocabulary := config.platform.vocabulary

end Config

end KernelPrep
